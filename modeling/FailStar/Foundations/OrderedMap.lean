import Mathlib.Tactic

/-! # Entries and values of an ordered map

An ordered map is `Std.TreeMap`, iterated in ascending key order. This file adds the facts about its
*entry list* that ownership arguments need: which entries an insertion or an erasure adds and removes,
with multiplicity.

* **`OrderedMap.toList_insert_of_absent`**, **`OrderedMap.toList_of_present`** — inserting at an absent key
  adds exactly one entry; a present key splits off exactly one entry.
* **`OrderedMap.values_insert_of_absent`**, **`OrderedMap.values_of_present`** — the same for the values. -/

namespace FailStar

open Std

variable {κ ν : Type*} [Ord κ] [TransOrd κ] [LawfulEqOrd κ] {t : TreeMap κ ν} {k : κ} {v : ν}

theorem OrderedMap.nodup_toList (t : TreeMap κ ν) : t.toList.Nodup := by
  refine TreeMap.distinct_keys_toList.imp fun {a b} hab heq => hab ?_
  rw [heq]
  exact compare_self

theorem OrderedMap.filter_toList [DecidableEq κ] (t : TreeMap κ ν) (k : κ) :
    (t.toList.filter fun e => e.1 = k) = (t[k]?.map fun v => (k, v)).toList := by
  have hmem : ∀ e, e ∈ (t.toList.filter fun e => e.1 = k) ↔ e.1 = k ∧ t[k]? = some e.2 := by
    rintro ⟨k', v⟩
    rw [List.mem_filter, TreeMap.mem_toList_iff_getElem?_eq_some, decide_eq_true_eq, and_comm]
    exact and_congr_right fun (heq : k' = k) => by rw [heq]
  cases hk : t[k]? with
  | none =>
    refine List.eq_nil_iff_forall_not_mem.mpr fun e he => ?_
    simp [hmem, hk] at he
  | some v =>
    refine List.perm_singleton.mp ?_
    refine (List.perm_ext_iff_of_nodup ((OrderedMap.nodup_toList t).filter _) (List.nodup_singleton _)).mpr ?_
    rintro ⟨k', v'⟩
    rw [hmem, hk, Option.some.injEq, List.mem_singleton, Prod.mk.injEq]
    exact and_congr_right fun _ => eq_comm

/-- Two ordered maps that agree at every key have the same entries. -/
theorem OrderedMap.toList_perm_of_getElem? {t₁ t₂ : TreeMap κ ν} (h : ∀ k : κ, t₁[k]? = t₂[k]?) :
    t₁.toList.Perm t₂.toList := by
  rw [List.perm_ext_iff_of_nodup (OrderedMap.nodup_toList t₁) (OrderedMap.nodup_toList t₂)]
  rintro ⟨k, v⟩
  rw [TreeMap.mem_toList_iff_getElem?_eq_some, TreeMap.mem_toList_iff_getElem?_eq_some, h]

theorem OrderedMap.toList_insert_of_absent (h : t[k]? = none) :
    (t.insert k v).toList.Perm ((k, v) :: t.toList) := by
  have hnd : ((k, v) :: t.toList).Nodup := by
    refine List.nodup_cons.mpr ⟨fun hmem => ?_, OrderedMap.nodup_toList t⟩
    rw [TreeMap.mem_toList_iff_getElem?_eq_some, h] at hmem
    exact absurd hmem (by simp)
  rw [List.perm_ext_iff_of_nodup (OrderedMap.nodup_toList _) hnd]
  rintro ⟨k', v'⟩
  rw [TreeMap.mem_toList_iff_getElem?_eq_some, TreeMap.getElem?_insert, List.mem_cons,
    TreeMap.mem_toList_iff_getElem?_eq_some]
  by_cases hk : k = k'
  · subst hk
    simp [h, compare_self, eq_comm]
  · have hne : compare k k' ≠ .eq := fun he => hk (LawfulEqOrd.eq_of_compare he)
    simp [hne, Ne.symm hk]

/-- A present key splits off exactly its entry; erasing the key leaves the others. -/
theorem OrderedMap.toList_of_present (h : t[k]? = some v) :
    t.toList.Perm ((k, v) :: (t.erase k).toList) := by
  have herase : (t.erase k)[k]? = none := by
    rw [TreeMap.getElem?_erase, if_pos compare_self]
  refine List.Perm.trans ?_ (OrderedMap.toList_insert_of_absent (v := v) herase)
  refine OrderedMap.toList_perm_of_getElem? fun k' => ?_
  rw [TreeMap.getElem?_insert, TreeMap.getElem?_erase]
  by_cases hk : k = k'
  · subst hk
    simp [h, compare_self]
  · have hne : compare k k' ≠ .eq := fun he => hk (LawfulEqOrd.eq_of_compare he)
    simp [hne]

/-- The values of an ordered map, in ascending key order. -/
def OrderedMap.values (t : TreeMap κ ν) : List ν := t.toList.map Prod.snd

theorem OrderedMap.values_insert_of_absent (h : t[k]? = none) :
    (OrderedMap.values (t.insert k v)).Perm (v :: OrderedMap.values t) :=
  (OrderedMap.toList_insert_of_absent h).map Prod.snd

theorem OrderedMap.values_of_present (h : t[k]? = some v) :
    (OrderedMap.values t).Perm (v :: OrderedMap.values (t.erase k)) :=
  (OrderedMap.toList_of_present h).map Prod.snd

end FailStar
