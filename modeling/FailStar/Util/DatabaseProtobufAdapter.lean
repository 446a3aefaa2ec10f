import FailStar.Foundations.Odometer

/-! # Result messages in the database

`DatabaseProtobufAdapter` maps a type of messages to a table, and a message to rows of the table. A message may
contain one repeated message, whose elements may contain one as well, and so on. `insert_row` inserts one row for
every way to select an element on each of these levels: it binds the fields of the selected elements, executes
the INSERT statement, and counts the selector up like an odometer.

* **`gatherTypes`** — which types are accepted, with their columns; **`accepted_gatherTypes`** — the shape of
  these types.
* **`bind`**, **`fieldSizeAtPos`**, **`insertRow`** — the rows of a message.
* **`bind_eq`**, **`carry_eq`** — a row, and the next selector.
* **`one_row_per_leaf_iff`** — when there is one row for each selection. -/

namespace FailStar.DatabaseProtobufAdapter

/-! ## Types -/

/-- `FieldDescriptor::Label`. -/
inductive Label
  | required
  | optional
  | repeated
  deriving DecidableEq, Repr

/-- `cpp_type()` of a field that is not a message. -/
inductive CppType
  | int32
  | uint32
  | int64
  | uint64
  | double
  | float
  | bool
  | enum
  | string
  deriving DecidableEq, Repr

/-- `can_be_repeated`. -/
def CppType.canBeRepeated : CppType → Bool
  | enum | string => false
  | _ => true

/-- `FieldDescriptor`, with the options `sql_ignore` and `sql_primary_key`. -/
inductive Field
  | plain (name : String) (label : Label) (sqlIgnore sqlPrimaryKey : Bool) (type : CppType)
  | message (name : String) (label : Label) (sqlIgnore : Bool) (fields : List Field)

/-- `TypeBridge`: how a field is mapped to columns. A field is identified by its position in the message. -/
inductive Bridge
  | plain (desc : ℕ) (type : CppType)
  | repeated (desc : ℕ) (inner : CppType)
  | message (desc : ℕ) (isRepeated : Bool) (fieldCount : ℕ) (types : List Bridge)

/-- What `gatherTypes` collects. -/
structure Gathered where
  types : List Bridge := []
  /-- `repeated_message_stack`, without the message at the top level; all of them are repeated. -/
  stack : List ℕ := []
  fieldCount : ℕ := 0
  /-- `insert_stmt`. -/
  columns : List String := []
  primaryKey : List String := []

/-- **`gatherTypes`**, from the field `i` on. A type that cannot be handled ends the program. `isBack` tells
whether this message is the last one of `repeated_message_stack`; only then it may contain a repeated message,
which is pushed. -/
def gatherTypes : Bool → ℕ → List Field → Option Gathered
  | _, _, [] => some {}
  | isBack, i, .plain name label sqlIgnore sqlPrimaryKey type :: fields =>
    if sqlIgnore then gatherTypes isBack (i + 1) fields
    -- cannot handle repeated field
    else if label = .repeated ∧ ¬type.canBeRepeated then none
    else
      (gatherTypes isBack (i + 1) fields).map fun rest =>
        { rest with
          types := (if label = .repeated then .repeated i type else .plain i type) :: rest.types
          fieldCount := rest.fieldCount + 1
          columns := name :: rest.columns
          primaryKey := if sqlPrimaryKey then name :: rest.primaryKey else rest.primaryKey }
  | isBack, i, .message _ label sqlIgnore inner :: fields =>
    if sqlIgnore then gatherTypes isBack (i + 1) fields
    else
      match label with
      | .repeated =>
        -- cannot handle repeated inner message in two different paths
        if ¬isBack then none
        else
          (gatherTypes true 0 inner).bind fun inner =>
            (gatherTypes false (i + 1) fields).map fun rest =>
              { types := .message i true inner.fieldCount inner.types :: rest.types
                stack := i :: inner.stack ++ rest.stack
                fieldCount := inner.fieldCount + rest.fieldCount
                columns := inner.columns ++ rest.columns
                primaryKey := inner.primaryKey ++ rest.primaryKey }
      -- cannot handle optional inner message
      | .optional => none
      | .required =>
        (gatherTypes false 0 inner).bind fun inner =>
          (gatherTypes isBack (i + 1) fields).map fun rest =>
            { types := .message i false inner.fieldCount inner.types :: rest.types
              stack := inner.stack ++ rest.stack
              fieldCount := inner.fieldCount + rest.fieldCount
              columns := inner.columns ++ rest.columns
              primaryKey := inner.primaryKey ++ rest.primaryKey }

/-! ## Messages -/

variable {S : Type*}

/-- The value of a field: with the scalar values of a type `S`. -/
inductive Value (S : Type*)
  | plain (value : Option S)
  | plains (values : List S)
  | message (fields : List (Value S))
  | messages (elements : List (List (Value S)))

/-- `Message`: the values of its fields. -/
abbrev Message (S : Type*) := List (Value S)

/-- The elements of a repeated message. -/
def elementsOf (msg : Message S) (desc : ℕ) : List (Message S) :=
  match msg[desc]? with
  | some (.messages elements) => elements
  | _ => []

/-- `GetRepeatedMessage(msg, desc, index)`, if there is such an element. -/
def getRepeatedMessage (msg : Message S) (desc index : ℕ) : Option (Message S) := (elementsOf msg desc)[index]?

/-- `GetMessage(msg, desc)`. -/
def getMessage (msg : Message S) (desc : ℕ) : Message S :=
  match msg[desc]? with
  | some (.message fields) => fields
  | _ => []

/-- What is bound to a parameter of the statement. -/
inductive Cell (S : Type*)
  | null
  | value (type : CppType) (value : S)
  | blob (inner : CppType) (values : List S)
  deriving DecidableEq, Repr

/-- `bind`, of a plain field. -/
def bindPlain (msg : Message S) (desc : ℕ) (type : CppType) : Cell S :=
  match msg[desc]? with
  | some (.plain (some value)) => .value type value
  | _ => .null

/-- `TypeBridge_repeated::bind`. -/
def bindRepeated (msg : Message S) (desc : ℕ) (inner : CppType) : Cell S :=
  match msg[desc]? with
  | some (.plains (value :: values)) => .blob inner (value :: values)
  | _ => .null

/-- **`TypeBridge_message::bind`**, at a nesting level. It fails if an element or a digit of the selector is
accessed that does not exist. -/
def bind (selector : List ℕ) : ℕ → List Bridge → Message S → Option (List (Cell S))
  | _, [], _ => some []
  | level, .plain desc type :: types, msg => (bind selector level types msg).map (bindPlain msg desc type :: ·)
  | level, .repeated desc inner :: types, msg =>
    (bind selector level types msg).map (bindRepeated msg desc inner :: ·)
  | level, .message desc isRepeated _ inner :: types, msg =>
    (if isRepeated then selector[level + 1]?.bind (getRepeatedMessage msg desc)
      else some (getMessage msg desc)).bind
      fun innerMsg => (bind selector (level + 1) inner innerMsg).bind fun cells =>
        (bind selector level types msg).map (cells ++ ·)

/-- The loop of `field_size_at_pos`, from the level `i` on. -/
def fieldSizeFrom (selector : List ℕ) : List ℕ → ℕ → ℕ → Message S → Option ℕ
  | [], _, _, _ => none
  | desc :: stack, i, pos, msg =>
    if i = pos then some (elementsOf msg desc).length
    else (selector[i]?.bind (getRepeatedMessage msg desc)).bind (fieldSizeFrom selector stack (i + 1) pos)

/-- **`field_size_at_pos(msg, selector, pos)`**: the number of elements to select from on a level. -/
def fieldSizeAtPos (stack : List ℕ) (msg : Message S) (selector : List ℕ) (pos : ℕ) : Option ℕ :=
  if stack = [] then some 1 else fieldSizeFrom selector stack 1 pos msg

/-- **Incrementing the selector**, at the digit `i`: it is advanced, and reset if it has reached its range. There
is no next selector if the first digit is advanced. -/
def carry (stack : List ℕ) (msg : Message S) : ℕ → List ℕ → Option (Option (List ℕ))
  | 0, _ => some none
  | i + 1, selector =>
    let selector := selector.modify (i + 1) (· + 1)
    (fieldSizeAtPos stack msg selector (i + 1)).bind fun size =>
      if size ≤ selector.getD (i + 1) 0 then carry stack msg i (selector.set (i + 1) 0) else some (some selector)

/-- How `insert_row` ends, with the INSERTs it has executed: the selected path and the row. -/
inductive Outcome (S : Type*)
  | returned (ok : Bool) (executed : List (List ℕ × List (Cell S)))
  | outOfRange (executed : List (List ℕ × List (Cell S)))
  deriving DecidableEq

/-- The loop of `insert_row`. `bindParam` tells whether `mysql_stmt_bind_param` succeeds; the result of
`mysql_stmt_execute` is only logged. -/
def insertFrom (bindParam : List (Cell S) → Bool) (g : Gathered) (msg : Message S) :
    ℕ → List ℕ → List (List ℕ × List (Cell S)) → Option (Outcome S)
  | 0, _, _ => none
  | fuel + 1, selector, executed =>
    match bind selector 0 g.types msg with
    | none => some (.outOfRange executed)
    | some row =>
      if ¬bindParam row then some (.returned false executed)
      else
        let executed := executed ++ [(selector.tail, row)]
        match carry g.stack msg g.stack.length selector with
        | none => some (.outOfRange executed)
        | some none => some (.returned true executed)
        | some (some selector) => insertFrom bindParam g msg fuel selector executed

/-- **`insert_row(msg)`**, if `fuel` iterations are enough. -/
def insertRow (bindParam : List (Cell S) → Bool) (fuel : ℕ) (g : Gathered) (msg : Message S) :
    Option (Outcome S) :=
  insertFrom bindParam g msg fuel (List.replicate (g.stack.length + 1) 0) []

/-! ## Accepted types -/

/-- The number of columns of some types. -/
def width : List Bridge → ℕ
  | [] => 0
  | .plain _ _ :: types => width types + 1
  | .repeated _ _ :: types => width types + 1
  | .message _ _ _ inner :: types => width inner + width types

@[simp] theorem width_nil : width [] = 0 := by rw [width]

@[simp] theorem width_plain (desc : ℕ) (type : CppType) (types : List Bridge) :
    width (.plain desc type :: types) = width types + 1 := by rw [width]

@[simp] theorem width_repeated (desc : ℕ) (inner : CppType) (types : List Bridge) :
    width (.repeated desc inner :: types) = width types + 1 := by rw [width]

@[simp] theorem width_message (desc : ℕ) (isRepeated : Bool) (fieldCount : ℕ) (inner types : List Bridge) :
    width (.message desc isRepeated fieldCount inner :: types) = width inner + width types := by rw [width]

/-- **The repeated messages form a chain**: among some types, there is at most one repeated message, and so on
within its own types. The other messages contain none. Every message knows its number of columns. -/
inductive Chained : List ℕ → List Bridge → Prop
  | nil : Chained [] []
  | plain {stack : List ℕ} {desc : ℕ} {type : CppType} {types : List Bridge} :
    Chained stack types → Chained stack (.plain desc type :: types)
  | repeated {stack : List ℕ} {desc : ℕ} {inner : CppType} {types : List Bridge} :
    Chained stack types → Chained stack (.repeated desc inner :: types)
  | required {stack : List ℕ} {desc : ℕ} {inner types : List Bridge} :
    Chained [] inner → Chained stack types → Chained stack (.message desc false (width inner) inner :: types)
  | message {stack : List ℕ} {desc : ℕ} {inner types : List Bridge} :
    Chained stack inner → Chained [] types →
      Chained (desc :: stack) (.message desc true (width inner) inner :: types)

/-- What is known about a type that is accepted. -/
structure Accepted (isBack : Bool) (g : Gathered) : Prop where
  chained : Chained g.stack g.types
  noStack : isBack = false → g.stack = []
  fieldCount : g.fieldCount = width g.types
  columns : g.columns.length = width g.types

/-- **Accepted types** have a chain of repeated messages. -/
theorem accepted_gatherTypes {isBack : Bool} {i : ℕ} {fields : List Field} {g : Gathered}
    (h : gatherTypes isBack i fields = some g) : Accepted isBack g := by
  fun_induction gatherTypes isBack i fields generalizing g with
  | case1 =>
    obtain rfl := Option.some.inj h
    exact ⟨.nil, fun _ => rfl, by simp, by simp⟩
  | case2 isBack i name label sqlPrimaryKey type fields ih => exact ih h
  | case3 => cases h
  | case4 isBack i name label sqlIgnore sqlPrimaryKey type fields _ _ ih =>
    obtain ⟨rest, hrest, rfl⟩ := Option.map_eq_some_iff.mp h
    have hrest := ih hrest
    split
    · exact ⟨.repeated hrest.chained, hrest.noStack, by simp [hrest.fieldCount], by simp [hrest.columns]⟩
    · exact ⟨.plain hrest.chained, hrest.noStack, by simp [hrest.fieldCount], by simp [hrest.columns]⟩
  | case5 isBack i name label inner fields ih => exact ih h
  | case6 => cases h
  | case7 isBack i name sqlIgnore inner fields _ hback ihInner ihRest =>
    obtain ⟨inner, hinner, hmap⟩ := Option.bind_eq_some_iff.mp h
    obtain ⟨rest, hrest, rfl⟩ := Option.map_eq_some_iff.mp hmap
    have hinner := ihInner hinner
    have hrest := ihRest hrest
    -- no message behind the repeated one has been pushed
    have hchained := hrest.chained
    rw [hrest.noStack rfl] at hchained
    constructor
    · rw [hrest.noStack rfl, List.append_nil, hinner.fieldCount]
      exact .message hinner.chained hchained
    · exact fun hfalse => absurd hfalse (by simpa using hback)
    · simp [hinner.fieldCount, hrest.fieldCount]
    · simp [hinner.columns, hrest.columns]
  | case8 => cases h
  | case9 isBack i name sqlIgnore inner fields _ ihInner ihRest =>
    obtain ⟨inner, hinner, hmap⟩ := Option.bind_eq_some_iff.mp h
    obtain ⟨rest, hrest, rfl⟩ := Option.map_eq_some_iff.mp hmap
    have hinner := ihInner hinner
    have hrest := ihRest hrest
    have hchained := hinner.chained
    rw [hinner.noStack rfl] at hchained
    constructor
    · rw [hinner.noStack rfl, List.nil_append, hinner.fieldCount]
      exact .required hchained hrest.chained
    · intro hfalse
      rw [hinner.noStack rfl, List.nil_append, hrest.noStack hfalse]
    · simp [hinner.fieldCount, hrest.fieldCount]
    · simp [hinner.columns, hrest.columns]

/-! ## A row -/

/-- **The elements on a path**: one of each repeated message. -/
def elementsOn : List ℕ → Message S → List ℕ → Option (List (Message S))
  | desc :: stack, msg, index :: path =>
    (getRepeatedMessage msg desc index).bind fun element => (elementsOn stack element path).map (element :: ·)
  | _, _, _ => some []

/-- **The row of some elements**: the fields of the message, and of the elements of the repeated messages. -/
def rowOf : List Bridge → Message S → List (Message S) → List (Cell S)
  | [], _, _ => []
  | .plain desc type :: types, msg, elements => bindPlain msg desc type :: rowOf types msg elements
  | .repeated desc inner :: types, msg, elements => bindRepeated msg desc inner :: rowOf types msg elements
  | .message desc false _ inner :: types, msg, elements =>
    rowOf inner (getMessage msg desc) [] ++ rowOf types msg elements
  | .message _ true _ inner :: types, msg, element :: elements =>
    rowOf inner element elements ++ rowOf types msg (element :: elements)
  | .message _ true _ _ :: types, msg, [] => rowOf types msg []

theorem map_rowOf {types types' : List Bridge} {msg : Message S} {f : List (Cell S) → List (Cell S)}
    (h : ∀ elements, f (rowOf types msg elements) = rowOf types' msg elements)
    (elements : Option (List (Message S))) :
    (elements.map (rowOf types msg)).map f = elements.map (rowOf types' msg) := by
  rw [Option.map_map]
  congr 1
  funext elements
  exact h elements

theorem digit_of_drop {selector path : List ℕ} {i index : ℕ} (h : selector.drop i = index :: path) :
    selector[i]? = some index ∧ selector.drop (i + 1) = path := by
  constructor
  · rw [← List.head?_drop, h]
    rfl
  · rw [← List.tail_drop, h]
    rfl

/-- Without repeated messages, a selector plays no role. -/
theorem bind_of_no_stack {types : List Bridge} (h : Chained [] types) (selector : List ℕ) (level : ℕ)
    (msg : Message S)
    (elements : List (Message S)) : bind selector level types msg = some (rowOf types msg elements) := by
  generalize hstack : ([] : List ℕ) = stack at h
  induction h generalizing level msg elements with
  | nil => rw [bind, rowOf]
  | plain _ ih => rw [bind, ih level msg elements hstack, rowOf, Option.map_some]
  | repeated _ ih => rw [bind, ih level msg elements hstack, rowOf, Option.map_some]
  | required _ _ ihInner ih =>
    rw [bind, ih level msg elements hstack, rowOf, if_neg Bool.false_ne_true, Option.bind_some,
      ihInner (level + 1) _ [] rfl, Option.bind_some, Option.map_some]
  | message _ _ _ _ => cases hstack

/-- **What is bound** are the fields of the elements on the selected path, if there is one. -/
theorem bind_eq {stack : List ℕ} {types : List Bridge} (h : Chained stack types) {selector path : List ℕ}
    {level : ℕ}
    (hlength : path.length = stack.length) (hpath : selector.drop (level + 1) = path) (msg : Message S) :
    bind selector level types msg = (elementsOn stack msg path).map (rowOf types msg) := by
  -- induction over the types; only the repeated message takes a digit of the selector
  induction h generalizing level path msg with
  | nil =>
    obtain rfl := List.length_eq_zero_iff.mp hlength
    rw [bind, elementsOn, Option.map_some, rowOf]
    simp
  | plain _ ih =>
    rw [bind, ih hlength hpath]
    exact map_rowOf (fun elements => by rw [rowOf]) _
  | repeated _ ih =>
    rw [bind, ih hlength hpath]
    exact map_rowOf (fun elements => by rw [rowOf]) _
  | required hinner _ _ ih =>
    rw [bind, if_neg Bool.false_ne_true, Option.bind_some, bind_of_no_stack hinner selector (level + 1) _ [],
      Option.bind_some, ih hlength hpath]
    exact map_rowOf (fun elements => by rw [rowOf]) _
  | @message stack desc inner types _ htypes ihInner _ =>
    cases path with
    | nil => simp at hlength
    | cons index path =>
      obtain ⟨hdigit, hrest⟩ := digit_of_drop hpath
      rw [bind, if_pos rfl, hdigit, Option.bind_some, elementsOn]
      cases getRepeatedMessage msg desc index with
      | none => rfl
      | some element =>
        rw [Option.bind_some, Option.bind_some, ihInner (Nat.succ.inj hlength) hrest, Option.map_map]
        cases elementsOn stack element path with
        | none => rfl
        | some elements =>
          -- the types behind the repeated message do not depend on what is selected
          rw [Option.map_some, Option.bind_some,
            bind_of_no_stack htypes selector level msg (element :: elements),
            Option.map_some, Option.map_some, Function.comp_apply, rowOf]

/-! ## The selector -/

/-- The number of elements to select from behind a path. -/
def groupSize : List ℕ → Message S → List ℕ → ℕ
  | [], _, _ => 0
  | desc :: _, msg, [] => (elementsOf msg desc).length
  | desc :: stack, msg, index :: path =>
    match getRepeatedMessage msg desc index with
    | some element => groupSize stack element path
    | none => 0

theorem groupSize_of_element {stack : List ℕ} {msg element : Message S} {desc index : ℕ}
    (h : getRepeatedMessage msg desc index = some element) :
    (fun path => groupSize (desc :: stack) msg (index :: path)) = groupSize stack element := by
  funext path
  rw [groupSize, h]

theorem getRepeatedMessage_eq_none_iff {msg : Message S} {desc index : ℕ} :
    getRepeatedMessage msg desc index = none ↔ (elementsOf msg desc).length ≤ index := List.getElem?_eq_none_iff

theorem lt_of_getRepeatedMessage {msg element : Message S} {desc index : ℕ}
    (h : getRepeatedMessage msg desc index = some element) : index < (elementsOf msg desc).length :=
  (List.getElem?_eq_some_iff.mp h).1

theorem getRepeatedMessage_of_lt {msg : Message S} {desc index : ℕ} (h : index < (elementsOf msg desc).length) :
    getRepeatedMessage msg desc index = some (elementsOf msg desc)[index] := List.getElem?_eq_getElem h

theorem isSome_elementsOn_iff {stack : List ℕ} {msg : Message S} {path : List ℕ}
    (hlength : path.length = stack.length) :
    (elementsOn stack msg path).isSome ↔ Odometer.InRange (groupSize stack msg) path := by
  induction stack generalizing msg path with
  | nil =>
    obtain rfl := List.length_eq_zero_iff.mp hlength
    simp [elementsOn]
  | cons desc stack ih =>
    cases path with
    | nil => simp at hlength
    | cons index path =>
      rw [elementsOn, Odometer.inRange_cons, groupSize]
      cases h : getRepeatedMessage msg desc index with
      | none => simp [Nat.not_lt.mpr (getRepeatedMessage_eq_none_iff.mp h)]
      | some element =>
        rw [groupSize_of_element h, and_iff_right (lt_of_getRepeatedMessage h), ← ih (Nat.succ.inj hlength)]
        simp

/-- **`field_size_at_pos`** behind a path in range. -/
theorem fieldSizeFrom_eq {stack : List ℕ} {msg : Message S} {selector path rest : List ℕ} {i : ℕ}
    (hrange : Odometer.InRange (groupSize stack msg) path) (hlength : path.length < stack.length)
    (hselector : selector.drop i = path ++ rest) :
    fieldSizeFrom selector stack i (i + path.length) msg = some (groupSize stack msg path) := by
  induction stack generalizing msg path i with
  | nil => simp at hlength
  | cons desc stack ih =>
    cases path with
    | nil => rw [fieldSizeFrom, groupSize, List.length_nil, Nat.add_zero, if_pos rfl]
    | cons index path =>
      obtain ⟨hdigit, hnext⟩ := digit_of_drop hselector
      rw [Odometer.inRange_cons, groupSize] at hrange
      have hpos : i + (index :: path).length = i + 1 + path.length := by
        rw [List.length_cons]
        omega
      rw [fieldSizeFrom, if_neg (by rw [List.length_cons]; omega), hdigit, Option.bind_some, groupSize, hpos]
      cases h : getRepeatedMessage msg desc index with
      | none => exact absurd hrange.1 (Nat.not_lt.mpr (getRepeatedMessage_eq_none_iff.mp h))
      | some element =>
        rw [groupSize_of_element h] at hrange
        rw [Option.bind_some, ih hrange.2 (Nat.lt_of_succ_lt_succ hlength) hnext]

theorem modify_length (f : ℕ → ℕ) (front : List ℕ) (x : ℕ) (back : List ℕ) :
    (front ++ x :: back).modify front.length f = front ++ f x :: back := by
  induction front with
  | nil => rfl
  | cons y front ih => exact congrArg (y :: ·) ih

/-- **Incrementing the selector** yields the next path. -/
theorem carry_eq {stack : List ℕ} {msg : Message S} {path : List ℕ}
    (hrange : Odometer.InRange (groupSize stack msg) path) (hlength : path.length ≤ stack.length)
    (zeros : List ℕ) :
    carry stack msg path.length (0 :: path ++ zeros) =
      some ((Odometer.next (groupSize stack msg) path).map fun path => 0 :: path ++ zeros) := by
  -- induction from the last digit on; the digits behind it have been reset
  induction path using List.reverseRecOn generalizing zeros with
  | nil => rfl
  | append_singleton path x ih =>
    have hselector : 0 :: (path ++ [x]) ++ zeros = (0 :: path) ++ x :: zeros := by simp
    have hmodify := modify_length (· + 1) (0 :: path) x zeros
    rw [List.length_append, List.length_singleton] at hlength
    have hsize : fieldSizeAtPos stack msg ((0 :: path) ++ (x + 1) :: zeros) (path.length + 1) =
        some (groupSize stack msg path) := by
      have hne : stack ≠ [] := by
        rintro rfl
        simp at hlength
      rw [fieldSizeAtPos, if_neg hne, Nat.add_comm path.length]
      have hdrop : ((0 :: path) ++ (x + 1) :: zeros).drop 1 = path ++ (x + 1) :: zeros := rfl
      exact fieldSizeFrom_eq (Odometer.InRange.front hrange) (by omega) hdrop
    have hdigit : ((0 :: path) ++ (x + 1) :: zeros).getD (path.length + 1) 0 = x + 1 := by simp
    have hreset : ((0 :: path) ++ (x + 1) :: zeros).set (path.length + 1) 0 = 0 :: path ++ 0 :: zeros := by simp
    rw [List.length_cons] at hmodify
    rw [List.length_append, List.length_singleton, carry, hselector, hmodify, hsize, Option.bind_some, hdigit,
      hreset, Odometer.next_concat]
    by_cases hfull : groupSize stack msg path ≤ x + 1
    · rw [if_pos hfull, if_neg (Nat.not_lt.mpr hfull), ih (Odometer.InRange.front hrange) (by omega),
        Option.map_map]
      simp [Function.comp_def]
    · rw [if_neg hfull, if_pos (Nat.lt_of_not_le hfull)]
      simp

/-! ## The rows -/

section Rows

variable {bindParam : List (Cell S) → Bool} {g : Gathered} {msg : Message S}

theorem insertFrom_mono {fuel : ℕ} {selector : List ℕ} {executed : List (List ℕ × List (Cell S))} {o : Outcome S}
    (h : insertFrom bindParam g msg fuel selector executed = some o) (n : ℕ) :
    insertFrom bindParam g msg (fuel + n) selector executed = some o := by
  induction fuel generalizing selector executed with
  | zero => cases h
  | succ fuel ih =>
    rw [Nat.add_right_comm, insertFrom]
    rw [insertFrom] at h
    split at h
    · exact h
    · split at h
      · rwa [if_pos ‹_›]
      · rw [if_neg ‹_›]
        dsimp only at h ⊢
        split at h
        · exact h
        · exact h
        · exact ih h

/-- The row of a path. -/
def leafRow (g : Gathered) (msg : Message S) (path : List ℕ) : List ℕ × List (Cell S) :=
  (path, rowOf g.types msg ((elementsOn g.stack msg path).getD []))

variable (hbind : ∀ row, bindParam row = true) (hchained : Chained g.stack g.types)

include hbind hchained

/-- **One iteration of the loop.** -/
theorem insertFrom_succ {path : List ℕ} (hlength : path.length = g.stack.length) (fuel : ℕ)
    (executed : List (List ℕ × List (Cell S))) :
    insertFrom bindParam g msg (fuel + 1) (0 :: path) executed =
      if (elementsOn g.stack msg path).isSome then
        match Odometer.next (groupSize g.stack msg) path with
        | some path' => insertFrom bindParam g msg fuel (0 :: path') (executed ++ [leafRow g msg path])
        | none => some (.returned true (executed ++ [leafRow g msg path]))
      else some (.outOfRange executed) := by
  rw [insertFrom, bind_eq hchained hlength rfl]
  cases helements : elementsOn g.stack msg path with
  | none => rfl
  | some elements =>
    have hrange := (isSome_elementsOn_iff hlength).mp (Option.isSome_iff_exists.mpr ⟨elements, helements⟩)
    have hcarry := carry_eq hrange hlength.le []
    rw [List.append_nil, hlength] at hcarry
    have hrow : leafRow g msg path =
        (path, rowOf g.types msg elements) := by rw [leafRow, helements, Option.getD_some]
    rw [Option.map_some, Option.isSome_some, if_pos rfl, hrow]
    simp only [hbind, not_true_eq_false, if_false, hcarry, List.tail_cons]
    cases Odometer.next (groupSize g.stack msg) path with
    | none => rfl
    | some path' => simp

/-- **The loop executes one INSERT for each path**, as long as they are in range. -/
theorem insertFrom_run {path : List ℕ} {paths : List (List ℕ)}
    (hrun : Odometer.Run (groupSize g.stack msg) path paths)
    (hlength : path.length = g.stack.length) (executed : List (List ℕ × List (Cell S))) :
    if ∀ p ∈ paths, (elementsOn g.stack msg p).isSome then
      insertFrom bindParam g msg paths.length (0 :: path) executed =
        some (.returned true (executed ++ paths.map (leafRow g msg)))
    else ∃ executed', insertFrom bindParam g msg paths.length (0 :: path) executed =
      some (.outOfRange executed') := by
  -- the selector stack runs like an odometer, and a path out of range stops it with what was executed before
  induction hrun generalizing executed with
  | @last path hlast =>
    rw [List.length_singleton, insertFrom_succ hbind hchained hlength, hlast]
    simp only [List.forall_mem_singleton]
    split
    · rfl
    · exact ⟨executed, rfl⟩
  | @step path path' paths hnext _ ih =>
    have hlength' : path'.length = g.stack.length := (Odometer.length_next hnext).trans hlength
    rw [List.length_cons, insertFrom_succ hbind hchained hlength, hnext]
    simp only [List.forall_mem_cons]
    by_cases hpath : (elementsOn g.stack msg path).isSome = true
    · have hrest := ih hlength' (executed ++ [leafRow g msg path])
      simp only [hpath, true_and, if_true]
      rwa [List.append_assoc] at hrest
    · rw [if_neg hpath, if_neg fun h => hpath h.1]
      exact ⟨executed, rfl⟩

end Rows

/-! ## One row per leaf -/

/-- **There is one row for each selection** of an element on each level: the rows are in the order of their
paths, and each one has the fields of the elements on its path. -/
structure OneRowPerLeaf (g : Gathered) (msg : Message S) (executed : List (List ℕ × List (Cell S))) : Prop where
  once : ∀ path, path ∈ executed.map Prod.fst ↔
    path.length = g.stack.length ∧ ∃ elements, elementsOn g.stack msg path = some elements
  ordered : (executed.map Prod.fst).Pairwise (· < ·)
  fields : ∀ x ∈ executed, ∃ elements, elementsOn g.stack msg x.1 = some elements ∧
    x.2 = rowOf g.types msg elements

/-- No repeated message is empty. -/
def Filled : List ℕ → Message S → Prop
  | [], _ => True
  | desc :: stack, msg => elementsOf msg desc ≠ [] ∧ ∀ element ∈ elementsOf msg desc, Filled stack element

/-- The sizes the loop counts with: an empty repeated message looks like one with a single element. -/
def countedSize (stack : List ℕ) (msg : Message S) (path : List ℕ) : ℕ := max 1 (groupSize stack msg path)

theorem countedSize_pos (stack : List ℕ) (msg : Message S) (path : List ℕ) : 0 < countedSize stack msg path := by
  unfold countedSize
  omega

theorem countedSize_of_element {stack : List ℕ} {msg element : Message S} {desc index : ℕ}
    (h : getRepeatedMessage msg desc index = some element) :
    (fun path => countedSize (desc :: stack) msg (index :: path)) = countedSize stack element := by
  funext path
  rw [countedSize, countedSize, congrFun (groupSize_of_element h) path]

/-- **The loop only gets to paths in range** if no repeated message is empty. -/
theorem filled_iff (stack : List ℕ) (msg : Message S) :
    Filled stack msg ↔
      ∀ path ∈ Odometer.paths stack.length (countedSize stack msg), (elementsOn stack msg path).isSome := by
  induction stack generalizing msg with
  | nil => simp [Filled, elementsOn]
  | cons desc stack ih =>
    rw [Filled]
    simp only [Odometer.mem_paths] at ih ⊢
    constructor
    · rintro ⟨hne, hfilled⟩ path ⟨hlength, hrange⟩
      cases path with
      | nil => simp at hlength
      | cons index path =>
        have hlt : index < (elementsOf msg desc).length := by
          have hpos := List.length_pos_iff.mpr hne
          have hindex := hrange.1
          rw [countedSize, groupSize] at hindex
          omega
        have hget := getRepeatedMessage_of_lt hlt
        have hinner := (ih _).mp (hfilled _ (List.getElem_mem hlt)) path
          ⟨Nat.succ.inj hlength, by rw [← countedSize_of_element hget]; exact hrange.2⟩
        rw [elementsOn, hget, Option.bind_some, Option.isSome_map]
        exact hinner
    · intro h
      constructor
      · -- the loop starts with the first element of each repeated message
        intro hempty
        have hzero := h (List.replicate (stack.length + 1) 0)
          ⟨by simp, Odometer.inRange_replicate (countedSize_pos (desc :: stack) msg) _⟩
        rw [List.replicate_succ, elementsOn, getRepeatedMessage, hempty] at hzero
        simp at hzero
      · intro element helement
        obtain ⟨index, hlt, rfl⟩ := List.getElem_of_mem helement
        have hget := getRepeatedMessage_of_lt hlt
        refine (ih _).mpr ?_
        rintro path ⟨hlength, hrange⟩
        have hcounted : index < countedSize (desc :: stack) msg [] := by
          rw [countedSize, groupSize]
          omega
        have hpath := h (index :: path)
          ⟨congrArg (· + 1) hlength, hcounted, by rw [countedSize_of_element hget]; exact hrange⟩
        rwa [elementsOn, hget, Option.bind_some, Option.isSome_map] at hpath

/-- Paths with elements, in the order of the loop. -/
theorem oneRowPerLeaf_map {g : Gathered} {msg : Message S}
    (h : ∀ path ∈ Odometer.paths g.stack.length (countedSize g.stack msg),
      (elementsOn g.stack msg path).isSome) :
    OneRowPerLeaf g msg ((Odometer.paths g.stack.length (countedSize g.stack msg)).map (leafRow g msg)) := by
  have hpaths : ((Odometer.paths g.stack.length (countedSize g.stack msg)).map (leafRow g msg)).map Prod.fst =
      Odometer.paths g.stack.length (countedSize g.stack msg) := by
    rw [List.map_map]
    exact List.map_id _
  refine ⟨fun path => ?_, ?_, ?_⟩
  · rw [hpaths]
    constructor
    · intro hpath
      exact ⟨(Odometer.mem_paths.mp hpath).1, Option.isSome_iff_exists.mp (h path hpath)⟩
    · rintro ⟨hlength, helements⟩
      have hrange := (isSome_elementsOn_iff hlength).mp (Option.isSome_iff_exists.mpr helements)
      exact Odometer.mem_paths.mpr ⟨hlength, hrange.mono fun path => le_max_right _ _⟩
  · rw [hpaths]
    exact Odometer.pairwise_paths _ _
  · intro x hx
    obtain ⟨path, hpath, rfl⟩ := List.mem_map.mp hx
    obtain ⟨elements, helements⟩ := Option.isSome_iff_exists.mp (h path hpath)
    exact ⟨elements, helements, by rw [leafRow, helements, Option.getD_some]⟩

section Outcomes

variable {bindParam : List (Cell S) → Bool} (hbind : ∀ row, bindParam row = true) {g : Gathered}
  (hchained : Chained g.stack g.types) {msg : Message S}

include hbind hchained

/-- **`insert_row` without empty messages.** -/
theorem insertRow_of_filled (hfilled : Filled g.stack msg) :
    insertRow bindParam (Odometer.paths g.stack.length (countedSize g.stack msg)).length g msg =
      some (.returned true ((Odometer.paths g.stack.length (countedSize g.stack msg)).map (leafRow g msg))) := by
  have hrun := (Odometer.run_paths (countedSize_pos g.stack msg) g.stack.length).of_max_one
  have hspec := insertFrom_run hbind hchained hrun List.length_replicate []
  rwa [if_pos ((filled_iff _ _).mp hfilled)] at hspec

/-- **`insert_row` with an empty message**: the first path through it is not in range. -/
theorem insertRow_of_not_filled (hfilled : ¬Filled g.stack msg) :
    ∃ executed, insertRow bindParam (Odometer.paths g.stack.length (countedSize g.stack msg)).length g msg =
      some (.outOfRange executed) := by
  have hrun := (Odometer.run_paths (countedSize_pos g.stack msg) g.stack.length).of_max_one
  have hspec := insertFrom_run hbind hchained hrun List.length_replicate []
  rwa [if_neg fun h => hfilled ((filled_iff _ _).mpr h)] at hspec

/-- The loop has only one outcome. -/
theorem filled_of_returned {fuel : ℕ} {ok : Bool} {executed : List (List ℕ × List (Cell S))}
    (hreturned : insertRow bindParam fuel g msg = some (.returned ok executed)) : Filled g.stack msg := by
  by_contra hfilled
  obtain ⟨executed', hstuck⟩ := insertRow_of_not_filled hbind hchained hfilled
  have h := insertFrom_mono hreturned (Odometer.paths g.stack.length (countedSize g.stack msg)).length
  rw [Nat.add_comm, insertFrom_mono hstuck fuel] at h
  cases h

end Outcomes

/-- **There is one row per leaf** if no repeated message is empty. -/
theorem one_row_per_leaf_iff (bindParam : List (Cell S) → Bool) (hbind : ∀ row, bindParam row = true)
    (fields : List Field) (g : Gathered) (hg : gatherTypes true 0 fields = some g) (msg : Message S) :
    (∃ fuel executed, insertRow bindParam fuel g msg = some (.returned true executed) ∧
      OneRowPerLeaf g msg executed) ↔
      Filled g.stack msg := by
  have hchained := (accepted_gatherTypes hg).chained
  constructor
  · rintro ⟨fuel, executed, hreturned, -⟩
    exact filled_of_returned hbind hchained hreturned
  · intro hfilled
    exact ⟨_, _, insertRow_of_filled hbind hchained hfilled, oneRowPerLeaf_map ((filled_iff _ _).mp hfilled)⟩

/-- The type of a result: a pilot, and repeated results with repeated experiments. -/
def resultType : List Field :=
  [.message "fsppilot" .required false [.plain "pilot_id" .required false true .uint32],
    .message "result" .repeated false
      [.plain "bitoffset" .required false true .uint32,
        .message "experiment" .repeated false [.plain "latest_ip" .optional false false .uint32]]]

/-- A result message: the values of the experiments of each result. -/
def resultMessage (results : List (List ℕ)) : Message ℕ :=
  [.message [.plain (some 7)],
    .messages (results.map fun experiments =>
      [.plain (some 0), .messages (experiments.map fun ip => [.plain (some ip)])])]

/-- What is known about the type of a result. -/
def resultGathered : Gathered where
  types :=
    [.message 0 false 1 [.plain 0 .uint32],
      .message 1 true 2 [.plain 0 .uint32, .message 1 true 1 [.plain 0 .uint32]]]
  stack := [1, 1]
  fieldCount := 3
  columns := ["pilot_id", "bitoffset", "latest_ip"]
  primaryKey := ["pilot_id", "bitoffset"]

theorem gatherTypes_resultType : gatherTypes true 0 resultType = some resultGathered := by
  simp [gatherTypes, resultType, resultGathered]

/-- Two results, with one and with two experiments. -/
theorem one_row_per_leaf_ragged : ∃ fuel executed,
    insertRow (fun _ => true) fuel resultGathered (resultMessage [[16], [32, 48]]) =
      some (.returned true executed) ∧
      OneRowPerLeaf resultGathered (resultMessage [[16], [32, 48]]) executed := by
  refine (one_row_per_leaf_iff _ (fun _ => rfl) resultType _ gatherTypes_resultType _).mpr ?_
  simp [Filled, resultGathered, resultMessage, elementsOf]

/-- No results, and a second result without experiments: an element is accessed that does not exist. -/
theorem empty_group_is_accessed :
    gatherTypes true 0 resultType = some resultGathered ∧ ∀ results ∈ [[], [[16], []]], ¬∃ fuel executed,
      insertRow (fun _ => true) fuel resultGathered (resultMessage results) =
        some (.returned true executed) := by
  refine ⟨gatherTypes_resultType, fun results hresults => ?_⟩
  rintro ⟨fuel, executed, hreturned⟩
  have hfilled :=
    filled_of_returned (fun _ => rfl) (accepted_gatherTypes gatherTypes_resultType).chained hreturned
  simp only [List.mem_cons, List.not_mem_nil, or_false] at hresults
  rcases hresults with rfl | rfl
  · simp [Filled, resultGathered, resultMessage, elementsOf] at hfilled
  · simp [Filled, resultGathered, resultMessage, elementsOf] at hfilled

end FailStar.DatabaseProtobufAdapter
