import FailStar.Foundations.InputStream

/-! # Streams of messages

Traces are sequences of protocol buffer messages. `ProtoOStream` writes every message behind four bytes with its
length, and `ProtoIStream` reads them back, one message per call, until a call returns `false`.

* **`Protobuf`** — what is assumed of protocol buffers: parsing inverts serialization, and sizes are `int`s.
* **`writeMessage`**, **`getNext`** — the two methods; **`written`** — the file, **`getNexts`** — a number of
  calls.
* **`read_back`** — every call yields the next message, and `false` behind the last one. In a file that was cut
  off, it yields the messages that are still complete, and then `false`. -/

namespace FailStar.ProtoStream

/-- Messages of protocol buffers. -/
structure Protobuf (Message : Type*) where
  /-- `SerializeToOstream`. -/
  serialize : Message → List UInt8
  /-- `ParseFromString`: what it leaves in the message, also if it fails. -/
  parse : List UInt8 → Message
  parse_serialize : ∀ m, parse (serialize m) = m
  /-- `ByteSize()` is an `int`. -/
  byteSize_lt : ∀ m, (serialize m).length < 2 ^ 31

/-- `htonl`: the bytes of a number, as they are stored. -/
def htonl (n : ℕ) : List UInt8 :=
  [UInt8.ofNat (n / 2 ^ 24), UInt8.ofNat (n / 2 ^ 16), UInt8.ofNat (n / 2 ^ 8), UInt8.ofNat n]

/-- `ntohl`: the number of the bytes. -/
def ntohl (bytes : List UInt8) : ℕ := bytes.foldl (fun n byte => n * 2 ^ 8 + byte.toNat) 0

variable {Message : Type*} (pb : Protobuf Message)

/-- The bytes of one message. -/
def frame (m : Message) : List UInt8 := htonl (pb.serialize m).length ++ pb.serialize m

/-- **`writeMessage(m)`**, into a file that can be written. -/
def writeMessage (outfile : List UInt8) (m : Message) : List UInt8 := outfile ++ frame pb m

/-- The file with some messages. -/
def written (ms : List Message) : List UInt8 := ms.foldl (writeMessage pb) []

/-- **`getNext(m)`**: the message, or nothing if it returns `false`. -/
def getNext (infile : InputStream UInt8) : Option Message × InputStream UInt8 :=
  let (bytes, infile) := infile.read 4
  if infile.good then
    let mSize := ntohl bytes
    let (buf, infile) := infile.read mSize
    if infile.good then (some (pb.parse buf), infile) else (none, infile)
  else (none, infile)

/-- **The results of `n` calls.** -/
def getNexts : ℕ → InputStream UInt8 → List (Option Message)
  | 0, _ => []
  | n + 1, infile => (getNext pb infile).1 :: getNexts n (getNext pb infile).2

/-! ## Frames -/

theorem ntohl_htonl {n : ℕ} (h : n < 2 ^ 32) : ntohl (htonl n) = n := by
  simp only [ntohl, htonl, List.foldl_cons, List.foldl_nil, UInt8.toNat_ofNat']
  omega

theorem length_frame (m : Message) : (frame pb m).length = 4 + (pb.serialize m).length := by
  rw [frame, List.length_append]
  rfl

theorem written_eq_flatMap (ms : List Message) : written pb ms = ms.flatMap (frame pb) := by
  have h : ∀ outfile, ms.foldl (writeMessage pb) outfile = outfile ++ ms.flatMap (frame pb) := by
    induction ms with
    | nil => simp
    | cons m ms ih =>
      intro outfile
      rw [List.foldl_cons, ih, writeMessage, List.flatMap_cons, List.append_assoc]
  exact h []

theorem written_cons (m : Message) (ms : List Message) : written pb (m :: ms) = frame pb m ++ written pb ms := by
  rw [written_eq_flatMap, List.flatMap_cons, ← written_eq_flatMap]

/-! ## One call -/

/-- **A complete message is read.** -/
theorem getNext_frame (m : Message) (rest : List UInt8) :
    getNext pb { content := frame pb m ++ rest } = (some m, { content := rest }) := by
  have hsize : InputStream.read 4 { content := frame pb m ++ rest } =
      (htonl (pb.serialize m).length, { content := pb.serialize m ++ rest }) := by
    rw [frame, List.append_assoc]
    exact InputStream.read_append (htonl _) _
  have hlt := pb.byteSize_lt m
  rw [getNext, hsize]
  dsimp only
  rw [ntohl_htonl (by omega), InputStream.read_append]
  dsimp only
  rw [pb.parse_serialize]
  rfl

theorem getNext_of_short {infile : InputStream UInt8} (h : (infile.read 4).2.good = false) :
    (getNext pb infile).1 = none ∧ (getNext pb infile).2.good = false := by
  rw [getNext]
  dsimp only
  rw [h, if_neg Bool.false_ne_true]
  exact ⟨rfl, h⟩

/-- **A message that was cut off** is not read, wherever the cut is. -/
theorem getNext_cut (m : Message) {k : ℕ} (hk : k < (frame pb m).length) :
    (getNext pb { content := (frame pb m).take k }).1 = none ∧
      (getNext pb { content := (frame pb m).take k }).2.good = false := by
  rw [length_frame] at hk
  by_cases hlen : k < 4
  · -- the cut is in the length
    refine getNext_of_short pb (InputStream.good_read_of_lt ?_)
    exact Nat.lt_of_le_of_lt (List.length_take_le _ _) hlen
  · -- the cut is in the message
    have hsize : InputStream.read 4 { content := (frame pb m).take k } =
        (htonl (pb.serialize m).length, { content := (pb.serialize m).take (k - 4) }) := by
      rw [frame, List.take_append, List.take_of_length_le (Nat.not_lt.mp hlen)]
      exact InputStream.read_append (htonl _) _
    have hlt := pb.byteSize_lt m
    have hshort : (InputStream.read (pb.serialize m).length
        { content := (pb.serialize m).take (k - 4) }).2.good = false := by
      refine InputStream.good_read_of_lt ?_
      rw [List.length_take]
      omega
    have hgood : InputStream.good { content := (pb.serialize m).take (k - 4) } = true := rfl
    rw [getNext, hsize]
    dsimp only
    rw [ntohl_htonl (by omega), if_pos hgood, hshort, if_neg Bool.false_ne_true]
    exact ⟨rfl, hshort⟩

/-! ## All calls -/

/-- Behind a call that returned `false`, all calls do. -/
theorem getNexts_of_not_good {infile : InputStream UInt8} (h : infile.good = false) (n : ℕ) :
    getNexts pb n infile = List.replicate n none := by
  induction n generalizing infile with
  | zero => rfl
  | succ n ih =>
    obtain ⟨hnone, hgood⟩ := getNext_of_short pb (InputStream.good_read_of_not_good h 4)
    rw [getNexts, hnone, ih hgood, List.replicate_succ]

theorem getNexts_of_none {infile : InputStream UInt8} (h : (getNext pb infile).1 = none)
    (h' : (getNext pb infile).2.good = false) (n : ℕ) : getNexts pb n infile = List.replicate n none := by
  cases n with
  | zero => rfl
  | succ n => rw [getNexts, h, getNexts_of_not_good pb h', List.replicate_succ]

/-- The number of messages that are complete in the first `k` bytes. -/
def complete : List Message → ℕ → ℕ
  | [], _ => 0
  | m :: ms, k => if (frame pb m).length ≤ k then complete ms (k - (frame pb m).length) + 1 else 0

theorem complete_le (ms : List Message) (k : ℕ) : complete pb ms k ≤ ms.length := by
  induction ms generalizing k with
  | nil => exact le_rfl
  | cons m ms ih =>
    rw [complete]
    split
    · exact Nat.succ_le_succ (ih _)
    · exact Nat.zero_le _

theorem length_written_take_le_iff (ms : List Message) (k : ℕ) {n : ℕ} (hn : n ≤ ms.length) :
    (written pb (ms.take n)).length ≤ k ↔ n ≤ complete pb ms k := by
  induction ms generalizing k n with
  | nil =>
    obtain rfl := Nat.le_zero.mp hn
    simp [written]
  | cons m ms ih =>
    cases n with
    | zero => simp [written]
    | succ n =>
      rw [List.take_succ_cons, written_cons, List.length_append, complete]
      split
      · rename_i hle
        rw [Nat.add_le_add_iff_right, ← ih _ (Nat.le_of_succ_le_succ hn)]
        omega
      · omega

/-- **Reading the first `k` bytes** of a file. -/
theorem getNexts_take (ms : List Message) (k n : ℕ) :
    getNexts pb n { content := (written pb ms).take k } =
      (List.range n).map fun i => (ms.take (complete pb ms k))[i]? := by
  induction ms generalizing k n with
  | nil =>
    have hshort : (InputStream.read 4 { content := (written pb ([] : List Message)).take k }).2.good = false :=
      InputStream.good_read_of_lt (by simp [written])
    obtain ⟨hnone, hgood⟩ := getNext_of_short pb hshort
    rw [getNexts_of_none pb hnone hgood, complete, List.take_nil]
    simp
  | cons m ms ih =>
    rw [written_cons, complete]
    split
    · -- the first frame is complete
      rename_i hle
      rw [List.take_append, List.take_of_length_le hle]
      cases n with
      | zero => rfl
      | succ n =>
        rw [getNexts, getNext_frame, ih, List.range_succ_eq_map, List.map_cons, List.map_map]
        rfl
    · -- the file ends within the first frame, in its length field or in its body
      rename_i hlt
      rw [List.take_append_of_le_length (Nat.le_of_not_le hlt)]
      obtain ⟨hnone, hgood⟩ := getNext_cut pb m (Nat.not_le.mp hlt)
      rw [getNexts_of_none pb hnone hgood, List.take_zero]
      simp

/-- **Messages are read back**: the `i`-th call yields the `i`-th message, and `false` if there is none. In a
file that is cut off behind `k` bytes, this holds for the messages that are complete. -/
theorem read_back (ms : List Message) :
    (∀ n, getNexts pb n { content := written pb ms } = (List.range n).map fun i => ms[i]?) ∧
      ∀ k, ∃ c, IsGreatest {c | c ≤ ms.length ∧ (written pb (ms.take c)).length ≤ k} c ∧
        ∀ n, getNexts pb n { content := (written pb ms).take k } = (List.range n).map fun i =>
          (ms.take c)[i]? := by
  constructor
  · intro n
    have hall : complete pb ms (written pb ms).length = ms.length := by
      refine le_antisymm (complete_le pb ms _) ?_
      rw [← length_written_take_le_iff pb ms _ le_rfl, List.take_length]
    have hread := getNexts_take pb ms (written pb ms).length n
    rwa [List.take_length, hall, List.take_length] at hread
  · intro k
    refine ⟨complete pb ms k, ⟨⟨complete_le pb ms k, ?_⟩, ?_⟩, getNexts_take pb ms k⟩
    · exact (length_written_take_le_iff pb ms k (complete_le pb ms k)).mpr le_rfl
    · rintro c ⟨hc, hle⟩
      exact (length_written_take_le_iff pb ms k hc).mp hle

/-- Messages that are their own bytes. -/
def rawBytes : Protobuf {bytes : List UInt8 // bytes.length < 2 ^ 31} where
  serialize := Subtype.val
  parse bytes := if h : bytes.length < 2 ^ 31 then ⟨bytes, h⟩ else ⟨[], by decide⟩
  parse_serialize m := dif_pos m.2
  byteSize_lt m := m.2

/-- An empty message behind another one is read, too. -/
theorem read_back_emptyMessage :
    getNexts rawBytes 3 { content := written rawBytes [⟨[8, 7], by decide⟩, ⟨[], by decide⟩] } =
      [some ⟨[8, 7], by decide⟩, some ⟨[], by decide⟩, none] :=
  (read_back rawBytes [⟨[8, 7], by decide⟩, ⟨[], by decide⟩]).1 3

end FailStar.ProtoStream
