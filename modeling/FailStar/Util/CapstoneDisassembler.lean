import FailStar.Foundations.OrderedMap

/-! # The pieces of a section that are disassembled

`CapstoneDisassembler` disassembles the text section of an ELF file symbol by symbol. `get_symtab_map` collects
the symbols that start within the section, gives the ones without a size the room up to the next symbol, and
limits all sizes to the section. The sizes come unchecked from the file, and the limit is tested with a sum of 64
bits.

* **`getSymtabMap`** — start and size of the pieces; **`disassembleSection`** — the bytes that are handed to the
  disassembler.
* **`WithinSection`** — no piece leaves the section.
* **`withinSection_iff`** — this is so exactly if no symbol ends at `2 ^ 64` or beyond. -/

namespace FailStar.CapstoneDisassembler

open Std

/-! ## Symbols -/

/-- The types of symbols. -/
inductive SymbolType
  | notype
  | func
  | other
  deriving DecidableEq, Repr

/-- `ElfSymbol`: a symbol of the file, with a 64-bit address and size. -/
structure ElfSymbol where
  address : ℕ
  size : ℕ
  symbolType : SymbolType
  address_lt : address < 2 ^ 64
  size_lt : size < 2 ^ 64

/-- A section that ends below `2 ^ 64`. -/
structure Section where
  addr : ℕ
  size : ℕ
  fits : addr + size < 2 ^ 64

/-- The end of the section. -/
def Section.stop (sect : Section) : ℕ := sect.addr + sect.size

/-- Address and size of the symbols that may be code. -/
def codeSymbols (symbols : List ElfSymbol) : List (ℕ × ℕ) :=
  (symbols.filter fun s => s.symbolType = .func ∨ s.symbolType = .notype).map fun s => (s.address, s.size)

/-- The order of pairs. -/
def pairLe (s t : ℕ × ℕ) : Bool := s.1 < t.1 ∨ s.1 = t.1 ∧ s.2 ≤ t.2

/-- The sorted symbols, up to the 32-bit number the loop goes to. -/
def visited (symbols : List ElfSymbol) : List (ℕ × ℕ) :=
  let symbols := (codeSymbols symbols).mergeSort pairLe
  symbols.take (symbols.length % 2 ^ 32)

/-! ## The map -/

/-- Only symbols that start within this section are admitted. -/
def Section.Admits (sect : Section) (start : ℕ) : Prop := ¬(start < sect.addr ∨ sect.stop ≤ start)

instance (sect : Section) (start : ℕ) : Decidable (sect.Admits start) := inferInstanceAs (Decidable (¬_))

/-- The size of a symbol, with the symbols behind it. A symbol without a size covers the distance to the next
one, or to the end of the section; it is skipped if the next one has the same address. -/
def symbolSize (sect : Section) (start size : ℕ) (rest : List (ℕ × ℕ)) : Option ℕ :=
  if size = 0 then
    match rest with
    | [] => some (sect.stop - start)
    | next :: _ => if next.1 ≠ start then some (next.1 - start) else none
  else some size

/-- The size of a symbol is limited to within this section. The sum is one of 64 bits. -/
def limit (sect : Section) (start size : ℕ) : ℕ :=
  if sect.stop < (start + size) % 2 ^ 64 then sect.stop - start else size

/-- **The loop over the symbols**: the assignments to the map. -/
def assignments (sect : Section) : List (ℕ × ℕ) → List (ℕ × ℕ)
  | [] => []
  | (start, size) :: rest =>
    (if sect.Admits start then
      ((symbolSize sect start size rest).map fun size => (start, limit sect start size)).toList
      else []) ++ assignments sect rest

/-- A map, from assignments. -/
def assign (entries : List (ℕ × ℕ)) : TreeMap ℕ ℕ := entries.foldl (fun map e => map.insert e.1 e.2) ∅

/-- **`get_symtab_map(sect_addr, sect_size)`**. -/
def getSymtabMap (symbols : List ElfSymbol) (sect : Section) : TreeMap ℕ ℕ :=
  assign (assignments sect (visited symbols))

/-- **`disassemble_section`**: the parts of the section's data that are handed to `cs_disasm`, as offset and
length. -/
def disassembleSection (sect : Section) (symtabMap : TreeMap ℕ ℕ) : List (ℕ × ℕ) :=
  symtabMap.toList.map fun e => ((e.1 + 2 ^ 64 - sect.addr) % 2 ^ 64, e.2)

/-! ## Assignments -/

theorem getElem?_assign (front back : List (ℕ × ℕ)) (a v : ℕ) (hback : ∀ e ∈ back, e.1 ≠ a) :
    (assign (front ++ (a, v) :: back))[a]? = some v := by
  unfold assign
  rw [List.foldl_append, List.foldl_cons]
  generalize front.foldl (fun map e => map.insert e.1 e.2) (∅ : TreeMap ℕ ℕ) = map
  have hinsert : (map.insert a v)[a]? = some v := TreeMap.getElem?_insert_self
  generalize map.insert a v = map' at hinsert ⊢
  induction back generalizing map' with
  | nil => exact hinsert
  | cons e back ih =>
    obtain ⟨he, hback⟩ := List.forall_mem_cons.mp hback
    refine ih hback _ ?_
    rw [TreeMap.getElem?_insert, if_neg (by simpa using he), hinsert]

theorem mem_of_assign {entries : List (ℕ × ℕ)} {a v : ℕ} (h : (assign entries)[a]? = some v) :
    (a, v) ∈ entries := by
  induction entries using List.reverseRecOn with
  | nil => simp [assign] at h
  | append_singleton entries e ih =>
    have hlast : assign (entries ++ [e]) = (assign entries).insert e.1 e.2 := by
      unfold assign
      rw [List.foldl_append]
      rfl
    rw [hlast, TreeMap.getElem?_insert] at h
    split at h
    · rename_i heq
      obtain rfl := Option.some.inj h
      obtain rfl : e.1 = a := by simpa using heq
      exact List.mem_append_right _ (List.mem_singleton_self _)
    · exact List.mem_append_left _ (ih h)

variable {sect : Section} {symbols : List ElfSymbol} {start size : ℕ}

theorem mem_assignments {e : ℕ × ℕ} {l : List (ℕ × ℕ)} (h : e ∈ assignments sect l) :
    ∃ front size rest, l = front ++ (e.1, size) :: rest ∧ sect.Admits e.1 ∧
      ∃ size' ∈ symbolSize sect e.1 size rest, e.2 = limit sect e.1 size' := by
  induction l with
  | nil => cases h
  | cons s l ih =>
    obtain ⟨start, size⟩ := s
    rw [assignments] at h
    rcases List.mem_append.mp h with h | h
    · split at h
      · rename_i hadmits
        obtain ⟨size', hsize', rfl⟩ := Option.map_eq_some_iff.mp (Option.mem_toList.mp h)
        exact ⟨[], size, l, rfl, hadmits, size', hsize', rfl⟩
      · cases h
    · obtain ⟨front, size', rest, rfl, hrest⟩ := ih h
      exact ⟨(start, size) :: front, size', rest, rfl, hrest⟩

theorem assignments_append (sect : Section) (front l : List (ℕ × ℕ)) :
    ∃ pre, assignments sect (front ++ l) = pre ++ assignments sect l := by
  induction front with
  | nil => exact ⟨[], rfl⟩
  | cons s front ih =>
    obtain ⟨pre, hpre⟩ := ih
    rw [List.cons_append, assignments, hpre, ← List.append_assoc]
    exact ⟨_, rfl⟩

/-! ## The order of the symbols -/

theorem pairwise_visited (symbols : List ElfSymbol) :
    (visited symbols).Pairwise fun s t => pairLe s t = true := by
  refine List.Pairwise.sublist (List.take_sublist _ _) (List.pairwise_mergeSort ?_ ?_ _)
  · intro a b c hab hbc
    simp only [pairLe, decide_eq_true_eq] at hab hbc ⊢
    omega
  · intro a b
    simp only [pairLe, Bool.or_eq_true, decide_eq_true_eq]
    omega

theorem lt_of_mem_visited {s : ℕ × ℕ} (h : s ∈ visited symbols) : s.1 < 2 ^ 64 ∧ s.2 < 2 ^ 64 := by
  have hmem : s ∈ codeSymbols symbols := List.mem_mergeSort.mp (List.mem_of_mem_take h)
  obtain ⟨symbol, -, rfl⟩ := List.mem_map.mp hmem
  exact ⟨symbol.address_lt, symbol.size_lt⟩

/-! ## Which sections are left -/

/-- **No piece leaves the section**: neither in the map, nor where the bytes are handed over. -/
structure WithinSection (symbols : List ElfSymbol) (sect : Section) : Prop where
  entries : ∀ start size, (getSymtabMap symbols sect)[start]? = some size →
    sect.addr ≤ start ∧ start + size ≤ sect.addr + sect.size
  bytes : ∀ piece ∈ disassembleSection sect (getSymtabMap symbols sect), ∀ i < piece.2, piece.1 + i < sect.size

theorem symbolSize_of_ne_zero (h : size ≠ 0) (rest : List (ℕ × ℕ)) :
    symbolSize sect start size rest = some size := by
  unfold symbolSize
  exact if_neg h

theorem limit_of_lt (hadmits : sect.Admits start) (hsum : start + size < 2 ^ 64) :
    start + limit sect start size ≤ sect.stop := by
  rw [Section.Admits] at hadmits
  rw [limit, Nat.mod_eq_of_lt hsum]
  split
  · omega
  · omega

/-- A sum that wraps around is not seen to be too large. -/
theorem limit_of_le (hadmits : sect.Admits start) (hsize : size < 2 ^ 64) (hsum : 2 ^ 64 ≤ start + size) :
    limit sect start size = size := by
  have hfits := sect.fits
  rw [Section.Admits, Section.stop] at hadmits
  rw [limit, Section.stop]
  exact if_neg (by omega)

theorem symbolSize_lt {l front rest : List (ℕ × ℕ)} {size' : ℕ}
    (hsorted : l.Pairwise fun s t => pairLe s t = true)
    (hl : l = front ++ (start, size) :: rest) (hbound : ∀ s ∈ l, s.1 < 2 ^ 64) (hadmits : sect.Admits start)
    (hsize : start + size < 2 ^ 64) (h : size' ∈ symbolSize sect start size rest) : start + size' < 2 ^ 64 := by
  have hfits := sect.fits
  rw [Section.Admits, Section.stop] at hadmits
  unfold symbolSize at h
  split at h
  · split at h
    · obtain rfl := Option.some.inj h
      rw [Section.stop]
      omega
    · rename_i next rest'
      split at h
      · obtain rfl := Option.some.inj h
        rw [hl] at hsorted hbound
        have hnext := hbound next (by simp)
        -- the next symbol is not in front of this one
        have hle := (List.pairwise_cons.mp (List.pairwise_append.mp hsorted).2.1).1 next List.mem_cons_self
        simp only [pairLe, decide_eq_true_eq] at hle
        omega
      · cases h
  · obtain rfl := Option.some.inj h
    exact hsize

/-- The entries stay within the section if no sum wraps around. -/
theorem entry_within (h : ∀ s ∈ visited symbols, sect.Admits s.1 → s.1 + s.2 < 2 ^ 64)
    (hentry : (getSymtabMap symbols sect)[start]? = some size) :
    sect.addr ≤ start ∧ start + size ≤ sect.addr + sect.size := by
  obtain ⟨front, size₀, rest, hsplit, hadmits, size', hsize', hlimit⟩ := mem_assignments (mem_of_assign hentry)
  dsimp only at hsplit hadmits hsize' hlimit
  have hsum := h (start, size₀) (by simp [hsplit]) hadmits
  have hsum' :=
    symbolSize_lt (pairwise_visited symbols) hsplit (fun s hs => (lt_of_mem_visited hs).1) hadmits hsum hsize'
  have hle := limit_of_lt hadmits hsum'
  rw [← hlimit, Section.stop] at hle
  rw [Section.Admits, Section.stop] at hadmits
  exact ⟨by omega, hle⟩

theorem exists_last {l : List (ℕ × ℕ)} (hsorted : l.Pairwise fun s t => pairLe s t = true)
    (hmem : (start, size) ∈ l) :
    ∃ front size' back, l = front ++ (start, size') :: back ∧ size ≤ size' ∧ ∀ s ∈ back, s.1 ≠ start := by
  induction l using List.reverseRecOn with
  | nil => cases hmem
  | append_singleton l s ih =>
    obtain ⟨hsorted, -, hlast⟩ := List.pairwise_append.mp hsorted
    by_cases hs : s.1 = start
    · refine ⟨l, s.2, [], by rw [← hs], ?_, by simp⟩
      rcases List.mem_append.mp hmem with hmem | hmem
      · have hle := hlast _ hmem s (List.mem_singleton_self s)
        simp only [pairLe, decide_eq_true_eq] at hle
        omega
      · rw [← List.mem_singleton.mp hmem]
    · have hmem' : (start, size) ∈ l := by
        rcases List.mem_append.mp hmem with hmem | hmem
        · exact hmem
        · rw [← List.mem_singleton.mp hmem] at hs
          exact absurd rfl hs
      obtain ⟨front, size', back, rfl, hle, hback⟩ := ih hsorted hmem'
      refine ⟨front, size', back ++ [s], by simp, hle, ?_⟩
      exact List.forall_mem_append.mpr ⟨hback, List.forall_mem_singleton.mpr hs⟩

/-- **A sum that wraps around makes an entry that leaves the section.** -/
theorem entry_of_overflow (hmem : (start, size) ∈ visited symbols) (hadmits : sect.Admits start)
    (hsum : 2 ^ 64 ≤ start + size) :
    ∃ size', size ≤ size' ∧ (getSymtabMap symbols sect)[start]? = some size' := by
  obtain ⟨front, size', back, hsplit, hle, hback⟩ := exists_last (pairwise_visited symbols) hmem
  have hlast : (start, size') ∈ visited symbols := by simp [hsplit]
  have hbound := lt_of_mem_visited hlast
  have hlimit := limit_of_le hadmits hbound.2 (by omega)
  have hpositive : size' ≠ 0 := by omega
  obtain ⟨pre, hpre⟩ := assignments_append sect front ((start, size') :: back)
  refine ⟨size', hle, ?_⟩
  rw [getSymtabMap, hsplit, hpre, assignments, if_pos hadmits, symbolSize_of_ne_zero hpositive,
    Option.map_some, hlimit]
  refine getElem?_assign pre _ start size' fun e he => ?_
  obtain ⟨front', size'', rest, hrest, -⟩ := mem_assignments he
  exact hback (e.1, size'') (by simp [hrest])

/-- The bytes that are handed over are those of the entries. -/
theorem bytes_iff (symtabMap : TreeMap ℕ ℕ) :
    (∀ piece ∈ disassembleSection sect symtabMap, ∀ i < piece.2, piece.1 + i < sect.size) ↔
      ∀ start size, symtabMap[start]? = some size →
        ∀ i < size, (start + 2 ^ 64 - sect.addr) % 2 ^ 64 + i < sect.size := by
  rw [disassembleSection]
  simp only [List.forall_mem_map, Prod.forall, TreeMap.mem_toList_iff_getElem?_eq_some]

/-- **Disassembly stays within the section** exactly if no symbol that is admitted ends at `2 ^ 64` or beyond. -/
theorem withinSection_iff (symbols : List ElfSymbol) (sect : Section) :
    WithinSection symbols sect ↔ ∀ s ∈ visited symbols, sect.Admits s.1 → s.1 + s.2 < 2 ^ 64 := by
  constructor
  · rintro h ⟨start, size⟩ hmem hadmits
    by_contra hsum
    obtain ⟨size', hle, hentry⟩ := entry_of_overflow hmem hadmits (Nat.not_lt.mp hsum)
    have hwithin := (h.entries start size' hentry).2
    have hfits := sect.fits
    dsimp only at hsum
    omega
  · intro h
    refine ⟨fun start size hentry => entry_within h hentry, (bytes_iff _).mpr fun start size hentry i hi => ?_⟩
    obtain ⟨hge, hle⟩ := entry_within h hentry
    have hfits := sect.fits
    omega

/-- A symbol whose end wraps around is handed over with its whole size. -/
theorem wrapped_symbol_leaves_section :
    let sect : Section := ⟨16, 32, by decide⟩
    let symbols : List ElfSymbol := [⟨16, 2 ^ 64 - 1, .func, by decide, by decide⟩]
    (getSymtabMap symbols sect)[16]? = some (2 ^ 64 - 1) ∧ ¬WithinSection symbols sect := by
  intro sect symbols
  have hvisited : visited symbols = [(16, 2 ^ 64 - 1)] := by
    have hcode : codeSymbols symbols = [(16, 2 ^ 64 - 1)] := by decide
    rw [visited, hcode, List.mergeSort_singleton]
    rfl
  have hentry : (getSymtabMap symbols sect)[16]? = some (2 ^ 64 - 1) := by
    rw [getSymtabMap, hvisited]
    decide
  refine ⟨hentry, fun h => ?_⟩
  have hwithin := (h.entries 16 (2 ^ 64 - 1) hentry).2
  exact absurd hwithin (by decide)

end FailStar.CapstoneDisassembler
