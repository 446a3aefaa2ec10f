import Mathlib.Tactic

/-! # Asking an oracle

A computation asks an oracle one question after the other, and stops at the first negative answer. What it asks
does not depend on the answers otherwise, so that it runs to its end exactly if it does so with an oracle that
agrees to everything, and all those questions are answered positively.

* **`Oracle.Agrees`** — the oracle agrees to some questions, behind others.
* **`Heeds`** — a computation stops at the first negative answer.
* **`Heeds.bind`**, **`Heeds.map`**, **`Heeds.ite`**, **`heeds_foldlM`** — such computations compose. -/

namespace FailStar

variable {β τ υ α : Type*}

/-- The answer to a question, behind the questions asked before. -/
abbrev Oracle (β : Type*) := List β → β → Bool

namespace Oracle

/-- The oracle that agrees to everything. -/
def lenient : Oracle β := fun _ _ => true

/-- The oracle agrees to all questions of `ys` behind those of `xs`, which come first in `ys`. -/
def Agrees (o : Oracle β) (xs ys : List β) : Prop :=
  xs <+: ys ∧ ∀ front b, front ++ [b] <+: ys → xs <+: front → o front b = true

variable {o : Oracle β} {xs ys zs : List β}

theorem agrees_refl (o : Oracle β) (xs : List β) : o.Agrees xs xs := by
  refine ⟨List.prefix_rfl, fun front b hfront hxs => ?_⟩
  have hlen := (hfront.trans hxs).length_le
  rw [List.length_append, List.length_singleton] at hlen
  omega

theorem agrees_concat {b : β} : o.Agrees xs (xs ++ [b]) ↔ o xs b = true := by
  constructor
  · intro h
    exact h.2 xs b List.prefix_rfl List.prefix_rfl
  · intro h
    refine ⟨List.prefix_append xs [b], fun front b' hfront hxs => ?_⟩
    -- `front` is between `xs` and `xs ++ [b]`, and not the latter
    have hlen := hfront.length_le
    rw [List.length_append, List.length_append, List.length_singleton, List.length_singleton] at hlen
    obtain rfl := hxs.eq_of_length_le (by omega)
    obtain ⟨-, hb⟩ := List.append_inj (hfront.eq_of_length_le (by simp)) rfl
    rw [(List.cons.inj hb).1]
    exact h

/-- **Questions in between.** -/
theorem agrees_trans_iff (hxy : xs <+: ys) (hyz : ys <+: zs) :
    o.Agrees xs zs ↔ o.Agrees xs ys ∧ o.Agrees ys zs := by
  constructor
  · rintro ⟨-, h⟩
    exact ⟨⟨hxy, fun front b hfront hxs => h front b (hfront.trans hyz) hxs⟩,
      ⟨hyz, fun front b hfront hys => h front b hfront (hxy.trans hys)⟩⟩
  · rintro ⟨h₁, h₂⟩
    refine ⟨hxy.trans hyz, fun front b hfront hxs => ?_⟩
    by_cases hle : (front ++ [b]).length ≤ ys.length
    · exact h₁.2 front b (List.prefix_of_prefix_length_le hfront hyz hle) hxs
    · refine h₂.2 front b hfront (List.prefix_of_prefix_length_le hyz ((List.prefix_append _ _).trans hfront) ?_)
      rw [List.length_append, List.length_singleton] at hle
      omega

end Oracle

open Oracle

/-- **The computation `r` stops at the first negative answer.** The questions `xs` have been asked before it, and
`log` tells those that have been asked behind it. -/
structure Heeds (xs : List β) (log : τ → List β) (r : Oracle β → Option τ) : Prop where
  iff : ∀ o t, r o = some t ↔ r lenient = some t ∧ o.Agrees xs (log t)

variable {xs : List β} {log : τ → List β} {log' : υ → List β} {r : Oracle β → Option τ}

theorem Heeds.grows (h : Heeds xs log r) {t : τ} (ht : r lenient = some t) : xs <+: log t :=
  ((h.iff lenient t).mp ht).2.1

/-- A computation that asks nothing. -/
theorem heeds_silent {x : Option τ} (h : ∀ t, x = some t → log t = xs) : Heeds xs log fun _ => x := by
  refine ⟨fun o t => ⟨fun ht => ⟨ht, ?_⟩, fun ht => ht.1⟩⟩
  rw [h t ht]
  exact agrees_refl o xs

/-- A single question. -/
theorem heeds_ask {b : β} {t : τ} (h : log t = xs ++ [b]) :
    Heeds xs log fun o => if o xs b then some t else none := by
  refine ⟨fun o t' => ?_⟩
  have hlenient : lenient xs b = true := rfl
  rw [if_pos hlenient]
  constructor
  · intro ht
    by_cases hb : o xs b = true
    · rw [if_pos hb] at ht
      obtain rfl := Option.some.inj ht
      exact ⟨rfl, h ▸ agrees_concat.mpr hb⟩
    · rw [if_neg hb] at ht
      cases ht
  · rintro ⟨ht, hagrees⟩
    obtain rfl := Option.some.inj ht
    rw [h] at hagrees
    rw [if_pos (agrees_concat.mp hagrees)]

theorem Heeds.ite {c : Prop} [Decidable c] {r' : Oracle β → Option τ} (h : Heeds xs log r)
    (h' : Heeds xs log r') :
    Heeds xs log fun o => if c then r o else r' o := by
  by_cases hc : c
  · simpa only [if_pos hc] using h
  · simpa only [if_neg hc] using h'

theorem Heeds.map (h : Heeds xs log r) {f : τ → υ} (hlog : ∀ t, log' (f t) = log t) :
    Heeds xs log' fun o => (r o).map f := by
  refine ⟨fun o u => ?_⟩
  simp only [Option.map_eq_some_iff]
  constructor
  · rintro ⟨t, ht, rfl⟩
    obtain ⟨ht, hagrees⟩ := (h.iff o t).mp ht
    exact ⟨⟨t, ht, rfl⟩, (hlog t).symm ▸ hagrees⟩
  · rintro ⟨⟨t, ht, rfl⟩, hagrees⟩
    exact ⟨t, (h.iff o t).mpr ⟨ht, hlog t ▸ hagrees⟩, rfl⟩

/-- **One computation behind the other.** -/
theorem Heeds.bind (h : Heeds xs log r) {k : Oracle β → τ → Option υ}
    (hk : ∀ t, r lenient = some t → Heeds (log t) log' fun o => k o t) :
    Heeds xs log' fun o => (r o).bind (k o) := by
  refine ⟨fun o u => ?_⟩
  simp only [Option.bind_eq_some_iff]
  constructor
  · rintro ⟨t, ht, hu⟩
    obtain ⟨ht, hagrees⟩ := (h.iff o t).mp ht
    obtain ⟨hu, hagrees'⟩ := ((hk t ht).iff o u).mp hu
    exact ⟨⟨t, ht, hu⟩, (agrees_trans_iff hagrees.1 hagrees'.1).mpr ⟨hagrees, hagrees'⟩⟩
  · rintro ⟨⟨t, ht, hu⟩, hagrees⟩
    obtain ⟨hagrees, hagrees'⟩ := (agrees_trans_iff (h.grows ht) ((hk t ht).grows hu)).mp hagrees
    exact ⟨t, (h.iff o t).mpr ⟨ht, hagrees⟩, ((hk t ht).iff o u).mpr ⟨hu, hagrees'⟩⟩

/-- **A loop.** -/
theorem heeds_foldlM {step : Oracle β → τ → α → Option τ} (h : ∀ t a, Heeds (log t) log fun o => step o t a)
    (as : List α) (t : τ) : Heeds (log t) log fun o => as.foldlM (step o) t := by
  induction as generalizing t with
  | nil =>
    refine heeds_silent fun t' ht => ?_
    rw [Option.some.inj ht]
  | cons a as ih =>
    simp only [List.foldlM_cons]
    exact (h t a).bind fun t' _ => ih t'

end FailStar
