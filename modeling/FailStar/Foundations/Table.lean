import Mathlib.Tactic

/-! # Tables with a primary key

Relational tables as lists of rows, with the statements that respect a primary key.

* **`Table key`** — rows whose keys are distinct; **`Table.find`** — the row with a key.
* **`Table.insert`**, **`Table.replace`**, **`Table.update`** — the statements; a lemma for each tells which rows
  are found behind it.
* **`AutoTable`** — rows that are numbered as they are inserted. -/

namespace FailStar

/-- **A table with a primary key.** -/
structure Table {α κ : Type*} (key : α → κ) where
  rows : List α
  unique : (rows.map key).Nodup

namespace Table

variable {α κ : Type*} {key : α → κ} {t t' : Table key} {x y : α} {k : κ} {new : List α}

theorem eq_of_key (t : Table key) (hx : x ∈ t.rows) (hy : y ∈ t.rows) (h : key x = key y) : x = y :=
  List.inj_on_of_nodup_map t.unique hx hy h

theorem filter_key [DecidableEq κ] (t : Table key) (hx : x ∈ t.rows) :
    (t.rows.filter fun y => key y = key x) = [x] := by
  obtain ⟨front, back, hrows⟩ := List.append_of_mem hx
  have hunique := t.unique
  rw [hrows, List.map_append, List.map_cons, List.nodup_middle, List.nodup_cons, ← List.map_append] at hunique
  have hother : ∀ y ∈ front ++ back, key y ≠ key x := by
    intro y hy hkey
    exact hunique.1 (hkey ▸ List.mem_map_of_mem hy)
  rw [List.forall_mem_append] at hother
  rw [hrows, List.filter_append, List.filter_cons_of_pos (by simp), List.filter_eq_nil_iff.mpr,
    List.filter_eq_nil_iff.mpr]
  · rfl
  · simpa using hother.2
  · simpa using hother.1

variable [DecidableEq κ]

/-- The row with a key. -/
def find (t : Table key) (k : κ) : Option α := t.rows.find? fun x => key x = k

theorem find_eq_some_iff : t.find k = some x ↔ x ∈ t.rows ∧ key x = k := by
  constructor
  · intro h
    exact ⟨List.mem_of_find?_eq_some h, by simpa using List.find?_some h⟩
  · rintro ⟨hx, rfl⟩
    obtain ⟨y, hy⟩ : ∃ y, t.find (key x) = some y := by
      rw [← Option.isSome_iff_exists, find, List.find?_isSome]
      exact ⟨x, hx, by simp⟩
    have hkey : key y = key x := by simpa using List.find?_some hy
    rw [hy, t.eq_of_key (List.mem_of_find?_eq_some hy) hx hkey]

theorem find_eq_none_iff : t.find k = none ↔ ∀ x ∈ t.rows, key x ≠ k := by
  simp [find]

/-- A table is known by what is found in it. -/
theorem mem_rows_iff : x ∈ t.rows ↔ t.find (key x) = some x := by
  simp [find_eq_some_iff]

/-! ## INSERT -/

/-- `INSERT`: fails if a key is there already. -/
def insert (t : Table key) (new : List α) : Option (Table key) :=
  if h : ((t.rows ++ new).map key).Nodup then some ⟨t.rows ++ new, h⟩ else none

theorem insert_eq_some (hnew : (new.map key).Nodup) (hdisjoint : ∀ x ∈ t.rows, ∀ y ∈ new, key x ≠ key y) :
    ∃ t', t.insert new = some t' ∧ t'.rows = t.rows ++ new := by
  have h : ((t.rows ++ new).map key).Nodup := by
    rw [List.map_append, List.nodup_append]
    refine ⟨t.unique, hnew, fun a ha b hb => ?_⟩
    obtain ⟨x, hx, rfl⟩ := List.mem_map.mp ha
    obtain ⟨y, hy, rfl⟩ := List.mem_map.mp hb
    exact hdisjoint x hx y hy
  exact ⟨⟨t.rows ++ new, h⟩, dif_pos h, rfl⟩

theorem find_insert (hnew : (new.map key).Nodup) (hdisjoint : ∀ x ∈ t.rows, ∀ y ∈ new, key x ≠ key y) :
    ∃ t', t.insert new = some t' ∧ ∀ k, t'.find k = (new.find? fun x => key x = k).or (t.find k) := by
  obtain ⟨t', hinsert, hrows⟩ := insert_eq_some hnew hdisjoint
  refine ⟨t', hinsert, fun k => ?_⟩
  rw [find, hrows, List.find?_append]
  change (t.find k).or _ = _
  cases hold : t.find k with
  | none => rw [Option.none_or, Option.or_none]
  | some x =>
    obtain ⟨hx, rfl⟩ := find_eq_some_iff.mp hold
    have hnone : (new.find? fun y => key y = key x) = none := by
      rw [List.find?_eq_none]
      intro y hy hkey
      exact hdisjoint x hx y hy (of_decide_eq_true hkey).symm
    rw [hnone]
    rfl

/-- `INSERT` of one row, whose failure is ignored. -/
def insertOne (t : Table key) (x : α) : Table key := (t.insert [x]).getD t

/-- Behind the `INSERT` the key is there in any case, and no other key comes in. -/
theorem mem_keys_insertOne (t : Table key) (x : α) (k : κ) :
    k ∈ (t.insertOne x).rows.map key ↔ k ∈ t.rows.map key ∨ k = key x := by
  by_cases h : key x ∈ t.rows.map key
  · have hnone : t.insert [x] = none := by
      refine dif_neg fun hnodup => ?_
      rw [List.map_append, List.nodup_append] at hnodup
      exact hnodup.2.2 _ h _ (List.mem_singleton_self _) rfl
    rw [insertOne, hnone, Option.getD_none]
    exact ⟨Or.inl, fun hk => hk.elim id fun hk => hk ▸ h⟩
  · have hnew : ([x].map key).Nodup := List.nodup_singleton (key x)
    obtain ⟨t', hinsert, hrows⟩ := insert_eq_some (t := t) hnew (by
      intro y hy z hz hkey
      rw [List.mem_singleton.mp hz] at hkey
      exact h (hkey ▸ List.mem_map_of_mem hy))
    rw [insertOne, hinsert, Option.getD_some, hrows, List.map_append, List.mem_append, List.map_singleton,
      List.mem_singleton]

/-! ## REPLACE -/

/-- `REPLACE` with one row: a row with the same key is deleted before. -/
def replaceOne (t : Table key) (x : α) : Table key where
  rows := (t.rows.filter fun y => key y ≠ key x) ++ [x]
  unique := by
    rw [List.map_append, List.nodup_append]
    refine ⟨t.unique.sublist (List.filter_sublist.map key), List.nodup_singleton _, fun a ha b hb => ?_⟩
    obtain ⟨y, hy, rfl⟩ := List.mem_map.mp ha
    rw [List.map_singleton, List.mem_singleton] at hb
    rw [hb]
    simpa using (List.mem_filter.mp hy).2

/-- `REPLACE`: one row after the other. -/
def replace (t : Table key) (new : List α) : Table key := new.foldl replaceOne t

theorem find_replaceOne (t : Table key) (x : α) (k : κ) :
    (t.replaceOne x).find k = if key x = k then some x else t.find k := by
  split
  · rename_i hk
    exact find_eq_some_iff.mpr ⟨by simp [replaceOne], hk⟩
  · rename_i hk
    ext y
    rw [find_eq_some_iff, find_eq_some_iff]
    constructor
    · rintro ⟨hy, rfl⟩
      obtain hy | hy := List.mem_append.mp hy
      · exact ⟨(List.mem_filter.mp hy).1, rfl⟩
      · exact absurd (congrArg key (List.mem_singleton.mp hy)).symm hk
    · rintro ⟨hy, rfl⟩
      exact ⟨List.mem_append_left _ (List.mem_filter.mpr ⟨hy, by simpa using fun h => hk h.symm⟩), rfl⟩

theorem find?_eq_none_of_nodup {γ : Type*} {keyOf : γ → κ} {c : γ} {cs : List γ}
    (h : ((c :: cs).map keyOf).Nodup) :
    (cs.find? fun y => keyOf y = keyOf c) = none := by
  rw [List.map_cons, List.nodup_cons] at h
  rw [List.find?_eq_none]
  intro y hy hkey
  exact h.1 (of_decide_eq_true hkey ▸ List.mem_map_of_mem hy)

/-- **The rows that `REPLACE` writes win**, if they have different keys. -/
theorem find_replace (hnew : (new.map key).Nodup) (t : Table key) (k : κ) :
    (t.replace new).find k = (new.find? fun x => key x = k).or (t.find k) := by
  induction new generalizing t with
  | nil => rfl
  | cons x new ih =>
    rw [replace, List.foldl_cons]
    have hrest := ih hnew.of_cons (t.replaceOne x)
    rw [replace] at hrest
    rw [hrest, find_replaceOne]
    by_cases hk : key x = k
    · subst hk
      rw [if_pos rfl, List.find?_cons_of_pos (by simp), find?_eq_none_of_nodup hnew]
      rfl
    · rw [if_neg hk, List.find?_cons_of_neg (by simpa using hk)]

/-! ## UPDATE -/

/-- `UPDATE` of the row with a key, which is kept. -/
def update (t : Table key) (k : κ) (f : α → α) (hf : ∀ x, key (f x) = key x) : Table key where
  rows := t.rows.map fun x => if key x = k then f x else x
  unique := by
    have hkeys : (t.rows.map fun x => if key x = k then f x else x).map key = t.rows.map key := by
      rw [List.map_map]
      refine List.map_congr_left fun x _ => ?_
      dsimp only [Function.comp]
      split
      · exact hf x
      · rfl
    rw [hkeys]
    exact t.unique

theorem find_update (t : Table key) (k k' : κ) (f : α → α) (hf : ∀ x, key (f x) = key x) :
    (t.update k f hf).find k' = if k = k' then (t.find k').map f else t.find k' := by
  ext y
  rw [find_eq_some_iff, update, List.mem_map]
  by_cases hk : k = k'
  · -- the row with the key is changed, and keeps its key
    subst hk
    rw [if_pos rfl, Option.map_eq_some_iff]
    constructor
    · rintro ⟨⟨x, hx, rfl⟩, hkey⟩
      by_cases hxk : key x = k
      · exact ⟨x, find_eq_some_iff.mpr ⟨hx, hxk⟩, (if_pos hxk).symm⟩
      · rw [if_neg hxk] at hkey
        exact absurd hkey hxk
    · rintro ⟨x, hx, rfl⟩
      obtain ⟨hmem, rfl⟩ := find_eq_some_iff.mp hx
      exact ⟨⟨x, hmem, if_pos rfl⟩, hf x⟩
  · -- a changed row cannot get the other key
    rw [if_neg hk, find_eq_some_iff]
    constructor
    · rintro ⟨⟨x, hx, rfl⟩, hkey⟩
      by_cases hxk : key x = k
      · rw [if_pos hxk, hf, hxk] at hkey
        exact absurd hkey hk
      · rw [if_neg hxk] at hkey ⊢
        exact ⟨hx, hkey⟩
    · rintro ⟨hy, rfl⟩
      exact ⟨⟨y, hy, if_neg fun h => hk h.symm⟩, rfl⟩

/-- **Updates of rows with different keys** do not interfere. -/
theorem find_foldl_update {γ : Type*} {keyOf : γ → κ} {f : γ → α → α} {hf : ∀ c x, key (f c x) = key x}
    {cs : List γ} (hkeys : (cs.map keyOf).Nodup) (t : Table key) (k : κ) :
    (cs.foldl (fun t c => t.update (keyOf c) (f c) (hf c)) t).find k =
      (cs.find? fun c => keyOf c = k).elim (t.find k) fun c => (t.find k).map (f c) := by
  induction cs generalizing t with
  | nil => rfl
  | cons c cs ih =>
    rw [List.foldl_cons, ih hkeys.of_cons, find_update]
    by_cases hk : keyOf c = k
    · subst hk
      rw [if_pos rfl, List.find?_cons_of_pos (by simp), find?_eq_none_of_nodup hkeys]
      rfl
    · rw [if_neg hk, List.find?_cons_of_neg (by simpa using hk)]

end Table

/-! ## AUTO_INCREMENT -/

/-- The elements of a list, numbered from `n` on. -/
def number {β : Type*} : ℕ → List β → List (ℕ × β)
  | _, [] => []
  | n, b :: bs => (n, b) :: number (n + 1) bs

section Number

variable {β : Type*} {n : ℕ} {bs cs : List β} {x : ℕ × β}

@[simp] theorem map_snd_number (n : ℕ) (bs : List β) : (number n bs).map Prod.snd = bs := by
  induction bs generalizing n with
  | nil => rfl
  | cons b bs ih => rw [number, List.map_cons, ih]

theorem number_append (n : ℕ) (bs cs : List β) :
    number n (bs ++ cs) = number n bs ++ number (n + bs.length) cs := by
  induction bs generalizing n with
  | nil => rfl
  | cons b bs ih =>
    rw [List.cons_append, number, ih, number, List.cons_append, List.length_cons, Nat.add_right_comm,
      Nat.add_assoc]

theorem number_map {γ : Type*} (f : β → γ) (n : ℕ) (bs : List β) :
    number n (bs.map f) = (number n bs).map fun x => (x.1, f x.2) := by
  induction bs generalizing n with
  | nil => rfl
  | cons b bs ih => rw [List.map_cons, number, ih, number, List.map_cons]

theorem fst_number (h : x ∈ number n bs) : n ≤ x.1 ∧ x.1 < n + bs.length := by
  induction bs generalizing n with
  | nil => cases h
  | cons b bs ih =>
    rw [List.length_cons]
    obtain rfl | h := List.mem_cons.mp h
    · exact ⟨le_rfl, by omega⟩
    · have := ih h
      omega

theorem nodup_number (n : ℕ) (bs : List β) : ((number n bs).map Prod.fst).Nodup := by
  induction bs generalizing n with
  | nil => exact List.nodup_nil
  | cons b bs ih =>
    rw [number, List.map_cons, List.nodup_cons]
    refine ⟨fun h => ?_, ih (n + 1)⟩
    obtain ⟨x, hx, hfst⟩ := List.mem_map.mp h
    have := (fst_number hx).1
    omega

theorem snd_mem_of_number (h : x ∈ number n bs) : x.2 ∈ bs := by
  rw [← map_snd_number n bs]
  exact List.mem_map_of_mem h

theorem exists_number {b : β} (h : b ∈ bs) (n : ℕ) : ∃ id, (id, b) ∈ number n bs := by
  rw [← map_snd_number n bs] at h
  obtain ⟨⟨id, b'⟩, hx, rfl⟩ := List.mem_map.mp h
  exact ⟨id, hx⟩

end Number

/-- **A table whose rows are numbered** as they are inserted, and the next number. -/
structure AutoTable (β : Type*) where
  rows : List (ℕ × β)
  next : ℕ
  unique : (rows.map Prod.fst).Nodup
  below : ∀ x ∈ rows, x.1 < next

namespace AutoTable

variable {β : Type*}

/-- `INSERT`. -/
def insert (t : AutoTable β) (new : List β) : AutoTable β where
  rows := t.rows ++ number t.next new
  next := t.next + new.length
  unique := by
    rw [List.map_append, List.nodup_append]
    refine ⟨t.unique, nodup_number _ _, fun a ha b hb => ?_⟩
    obtain ⟨x, hx, rfl⟩ := List.mem_map.mp ha
    obtain ⟨y, hy, rfl⟩ := List.mem_map.mp hb
    have := t.below x hx
    have := (fst_number hy).1
    omega
  below := by
    intro x hx
    obtain hx | hx := List.mem_append.mp hx
    · have := t.below x hx
      omega
    · exact (fst_number hx).2

@[simp] theorem rows_insert (t : AutoTable β) (new : List β) :
    (t.insert new).rows = t.rows ++ number t.next new := rfl

theorem insert_insert (t : AutoTable β) (bs cs : List β) : (t.insert bs).insert cs = t.insert (bs ++ cs) := by
  simp only [insert, number_append, List.append_assoc, List.length_append, Nat.add_assoc]

theorem insert_nil (t : AutoTable β) : t.insert [] = t := by
  simp [insert, number]

theorem foldl_insert {γ : Type*} (f : γ → List β) (cs : List γ) (t : AutoTable β) :
    cs.foldl (fun t c => t.insert (f c)) t = t.insert (cs.flatMap f) := by
  induction cs generalizing t with
  | nil => exact (insert_nil t).symm
  | cons c cs ih => rw [List.foldl_cons, ih, insert_insert, List.flatMap_cons]

theorem eq_of_fst (t : AutoTable β) {x y : ℕ × β} (hx : x ∈ t.rows) (hy : y ∈ t.rows) (h : x.1 = y.1) : x = y :=
  List.inj_on_of_nodup_map t.unique hx hy h

end AutoTable

end FailStar
