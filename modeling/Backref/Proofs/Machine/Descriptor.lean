import Backref.Proofs.Machine.Slice

/-!
# Descriptors with partial operations

A descriptor is parsed byte by byte, and a class name is sliced out of its
text between two positions. The loops over array layers and over parameters
take a byte at least in every round.

Main results:

* `tracks_parseClassName` — a class name lies between places where its text
  may be cut;
* `parseFieldDescriptor_eq`, `parseMethodDescriptor_eq`, `parseClassOperand_eq` —
  a descriptor that a word measures is parsed as it is read.
-/

namespace Backref.Machine

open Descriptor Parsing

-- ---------------------------------------------------------------------------
-- The parser
-- ---------------------------------------------------------------------------

section Definitions

variable {α : Type} (text : String)

/-- An error in a descriptor, at the current position. -/
def descriptorFault (reason : DescriptorFault) : Parsing α := fun p =>
  .error (.fault (.descriptor reason p.position text)) p

/-- Gives another reason for the errors of a parsing. -/
def orFault (m : Parsing α) (reason : DescriptorFault) : Parsing α := fun p =>
  match m p with
  | .error (.fault _) q => descriptorFault text reason q
  | outcome => outcome

/-- Reads a byte. -/
def nextByte : Parsing UInt8 := orFault text (readInt UInt8) .unexpectedEnd

/-- The byte at the position, if there is one. -/
def peekByte : Parsing (Option UInt8) := fun p => .ok p.data[p.position]? p

/-- Passes over a byte that has been looked at. -/
def passByte : Parsing Unit := orFault text (advanceBy 1) .unexpectedEnd

/-- Reads a class name with the semicolon behind it. -/
def parseClassName : Parsing String := do
  let start ← position
  let ahead ← check (slice (← data) start (← data).length)
  match ahead.findIdx? (· == asciiByte ';') with
  | none => descriptorFault text .unterminatedName
  | some length =>
    if length = 0 then
      descriptorFault text .emptyName
    else
      let name ← check (textSlice text start (← check (add start length)))
      let passed ← check (add length 1)
      orFault text (advanceBy passed) .unterminatedName
      return name

/-- Reads an element type whose first byte is `current`. -/
def parseElement (current : UInt8) : Parsing ElementType := do
  if current = asciiByte 'L' then
    return .object (← parseClassName text)
  else if current = asciiByte 'V' then
    descriptorFault text .voidType
  else
    match Primitive.ofLetter? (Char.ofNat current.toNat) with
    | some p => return .primitive p
    | none => descriptorFault text .unknownType

/-- One round over array layers, from their number and the byte behind them. -/
def layerRound (s : Nat × UInt8) : Parsing ((Nat × UInt8) ⊕ (Nat × UInt8)) := do
  if s.2 = asciiByte '[' then
    let dimensions ← check (add s.1 1)
    if maxDimensions < dimensions then
      descriptorFault text .tooManyDimensions
    else
      return .inl (dimensions, ← nextByte text)
  else
    return .inr s

/-- Reads a field type. -/
def parseType : Parsing FieldType := do
  let first ← nextByte text
  let (dimensions, current) ← rounds (fun _ p => p.left) (layerRound text) (0, first)
  let element ← parseElement text current
  return ⟨dimensions, element⟩

/-- One round over parameters, behind those in `seen`. -/
def parameterRound (seen : Array FieldType) :
    Parsing (Array FieldType ⊕ Array FieldType) := do
  match ← peekByte with
  | none => descriptorFault text .unterminatedParameterList
  | some b =>
    if b = asciiByte ')' then
      passByte text
      return .inr seen
    else
      return .inl (seen.push (← parseType text))

/-- Reads a return type. -/
def parseReturnType : Parsing FieldType := do
  if (← peekByte) = some (asciiByte 'V') then
    passByte text
    return .void
  else
    parseType text

/-- Reads the types of a method. -/
def parseMethod : Parsing MethodType := do
  let first ← nextByte text
  if first = asciiByte '(' then
    let parameters ← rounds (fun _ p => p.left) (parameterRound text) #[]
    let result ← parseReturnType text
    return ⟨parameters.toList, result⟩
  else
    descriptorFault text .noParameterList

/-- Accepts what is parsed if it is the whole of the text. -/
def parseWhole (m : Parsing α) : Parsing α := do
  let a ← m
  if ← hasMoreData then descriptorFault text .trailingText else return a

/-- The field type that a descriptor spells. -/
def parseFieldDescriptor : Except Halt FieldType :=
  (parseWhole text (parseType text)).run (utf8 text.toList)

/-- The types that a method's descriptor spells. -/
def parseMethodDescriptor : Except Halt MethodType :=
  (parseWhole text (parseMethod text)).run (utf8 text.toList)

/-- The type that the operand of a class instruction names. -/
def parseClassOperand : Except Halt FieldType :=
  match text.toList with
  | [] => .error (.fault .emptyClassName)
  | c :: _ => if c = '[' then parseFieldDescriptor text else .ok ⟨0, .object text⟩

end Definitions

-- ---------------------------------------------------------------------------
-- Parsing and reading
-- ---------------------------------------------------------------------------

/-- The parser of a text at a position. -/
def Parser.ofText (text : String) (pos : Nat) : Parser := ⟨utf8 text.toList, pos⟩

/-- How the outcome of a parsing stands to that of reading characters: it is
the same, and where they go on from lies ahead of where the parser is. -/
inductive Tracks {α : Type} (text : String) :
    EStateM.Result Halt Parser α → Except Stop (Step α) → Prop
  | value {a : α} {pos : Nat} {rest : List Char} (ahead : Ahead text pos rest) :
      Tracks text (.ok a (.ofText text pos)) (.ok ⟨a, pos, rest⟩)
  | fault {reason : DescriptorFault} {pos : Nat} {p : Parser} :
      Tracks text (.error (.fault (.descriptor reason pos text)) p) (.error (reason, pos))

section Steps

variable {text : String} {pos : Nat} {c d : Char} {rest cs : List Char}

/-- A parsing goes on like reading does. -/
theorem Tracks.bind {α β : Type} {m : Parsing α} {f : α → Parsing β} {p : Parser}
    {y : Except Stop (Step α)} {z : Except Stop (Step β)} (h : Tracks text (m p) y)
    (hfault : ∀ stop, y = .error stop → z = .error stop)
    (hnext : ∀ a pos rest, y = .ok ⟨a, pos, rest⟩ → Ahead text pos rest →
      Tracks text (f a (.ofText text pos)) z) :
    Tracks text ((m >>= f) p) z := by
  generalize hm : m p = x at h
  cases h with
  | value ahead =>
    rw [bind_of_ok f hm]
    exact hnext _ _ _ rfl ahead
  | fault =>
    rw [bind_of_error f hm, hfault _ rfl]
    exact Tracks.fault

theorem length_utf8_pos (c : Char) (cs : List Char) : 0 < (utf8 (c :: cs)).length := by
  rw [utf8_cons, List.length_append]
  exact Nat.add_pos_left (List.length_pos_iff.mpr String.utf8EncodeChar_ne_nil) _

/-- The byte that is peeked at is the first one of the next character. -/
theorem peekByte_ofText (h : Ahead text pos cs) :
    peekByte (.ofText text pos) = .ok (cs.head?.map lead) (.ofText text pos) := by
  show EStateM.Result.ok (utf8 text.toList)[pos]? _ = _
  rw [h.getElem?_eq]

/-- At the end of a text, no byte is read. -/
theorem nextByte_at_end (h : Ahead text pos []) :
    nextByte text (.ofText text pos) =
      .error (.fault (.descriptor .unexpectedEnd pos text)) (.ofText text pos) := by
  have hend : readInt UInt8 (.ofText text pos) = .error (.fault .outOfBounds) (.ofText text pos) :=
    readByte_eq_error (Nat.le_of_eq h.length_eq)
  rw [nextByte, orFault, hend]
  rfl

variable (hword : (utf8 text.toList).length < wordLimit)
include hword

omit hword in
/-- With each character, less lies ahead. -/
theorem left_lt (h : Ahead text pos (c :: rest)) :
    (Parser.ofText text (pos + 1)).left < (Parser.ofText text pos).left := by
  have hlength := h.length_eq
  have hpos := length_utf8_pos c rest
  simp only [Parser.left, Parser.ofText]
  omega

/-- The first byte of the character ahead is read. -/
theorem nextByte_ofText (h : Ahead text pos (c :: rest)) :
    nextByte text (.ofText text pos) = .ok (lead c) (.ofText text (pos + 1)) := by
  have hbyte : readInt UInt8 (.ofText text pos) = .ok (lead c) (.ofText text (pos + 1)) :=
    readByte_eq_ok h.getElem?_eq hword
  rw [nextByte, orFault, hbyte]

/-- What lies ahead can be passed over. -/
theorem advanceBy_ofText {n : Nat} (h : pos + n ≤ (utf8 text.toList).length) :
    advanceBy n (.ofText text pos) = .ok () (.ofText text (pos + n)) := by
  have hend : endOf n (.ofText text pos) = .ok (pos + n) (.ofText text pos) :=
    if_pos ⟨Nat.lt_of_le_of_lt h hword, h⟩
  rw [advanceBy, bind_of_ok _ hend]
  rfl

/-- A character of one byte is passed as that byte. -/
theorem passByte_ofText (h : Ahead text pos (c :: rest)) :
    passByte text (.ofText text pos) = .ok () (.ofText text (pos + 1)) := by
  have hlength := h.length_eq
  have hpos := length_utf8_pos c rest
  rw [passByte, orFault, advanceBy_ofText hword (by omega)]

/-- A class name lies between places where its text may be cut. -/
theorem tracks_parseClassName (h : Ahead text pos cs) :
    Tracks text (parseClassName text (.ofText text pos))
      (match cs.dropWhile (· != ';') with
      | [] => .error (.unterminatedName, pos)
      | _ :: rest =>
        if (cs.takeWhile (· != ';')).isEmpty then .error (.emptyName, pos)
        else .ok ⟨String.ofList (cs.takeWhile (· != ';')),
          pos + byteLength (cs.takeWhile (· != ';')) + 1, rest⟩) := by
  have hsemicolon : IsAscii ';' := by decide
  have hlength := h.length_eq
  have hslice : slice (utf8 text.toList) pos (utf8 text.toList).length = .ok (utf8 cs) := by
    rw [slice_eq_ok ⟨by omega, Nat.le_refl _⟩, h.drop_eq]
    simp [hlength]
  have hposition : position (.ofText text pos) = .ok pos (.ofText text pos) := rfl
  have hdata : data (.ofText text pos) = .ok (utf8 text.toList) (.ofText text pos) := rfl
  rw [parseClassName, bind_of_ok _ hposition, bind_of_ok _ hdata, bind_of_ok _ hdata, hslice,
    check_ok_bind, findIdx?_utf8 hsemicolon]
  have hspan := List.takeWhile_append_dropWhile (p := (· != ';')) (l := cs)
  generalize cs.takeWhile (· != ';') = name, hdrop : cs.dropWhile (· != ';') = behind at hspan
  cases behind with
  | nil => exact .fault
  | cons d rest =>
    obtain rfl := head_dropWhile hdrop
    subst hspan
    simp only
    cases name with
    | nil => exact .fault
    | cons d name =>
      have hname : byteLength (d :: name) ≠ 0 := by
        rw [← length_utf8]
        exact Nat.ne_of_gt (length_utf8_pos d name)
      have hbehind : (utf8 (';' :: rest)).length = 1 + (utf8 rest).length := by
        rw [utf8_cons, utf8EncodeChar_of_ascii hsemicolon, List.length_append]
        rfl
      rw [utf8_append, List.length_append, length_utf8 (d :: name), hbehind] at hlength
      -- the name ends within the text, and so does the semicolon
      have hstop : add pos (byteLength (d :: name)) = .ok (pos + byteLength (d :: name)) :=
        add_eq_ok (by omega)
      have hpassed : add (byteLength (d :: name)) 1 = .ok (byteLength (d :: name) + 1) :=
        add_eq_ok (by omega)
      rw [if_neg hname, hstop, check_ok_bind, textSlice_ahead h, check_ok_bind, hpassed,
        check_ok_bind]
      have hroom : pos + (byteLength (d :: name) + 1) ≤ (utf8 text.toList).length := by omega
      have hpass : orFault text (advanceBy (byteLength (d :: name) + 1)) .unterminatedName
          (.ofText text pos) = .ok () (.ofText text (pos + (byteLength (d :: name) + 1))) := by
        rw [orFault, advanceBy_ofText hword hroom]
      rw [bind_of_ok _ hpass, ← Nat.add_assoc]
      exact .value (h.append.next hsemicolon)

omit hword in
/-- A byte is a letter of a type where the character that it starts is one. -/
theorem ofLetter?_lead (c : Char) :
    Primitive.ofLetter? (Char.ofNat (lead c).toNat) = Primitive.ofLetter? c := by
  have hascii : ∀ p : Primitive, IsAscii p.letter := by
    intro p
    cases p <;> decide
  by_cases hc : IsAscii c
  · rw [lead_of_ascii hc, toNat_asciiByte hc, Char.ofNat_toNat]
  · -- neither the character nor one with its first byte as number is a letter
    have hnone : ∀ d : Char, ¬ IsAscii d → Primitive.ofLetter? d = none := by
      intro d hd
      rw [Option.eq_none_iff_forall_ne_some]
      intro p hp
      exact hd (Primitive.letter_of_ofLetter? hp ▸ hascii p)
    have hlead := (bytes_of_not_ascii hc).1
    have hlt := (lead c).toNat_lt
    have hnat : (Char.ofNat (lead c).toNat).toNat = (lead c).toNat := by
      rw [Char.ofNat, dif_pos (.inl (by omega))]
      rfl
    rw [hnone c hc, hnone]
    rw [IsAscii, hnat]
    omega

/-- An element type is parsed from its first byte on. -/
theorem tracks_parseElement (h : Ahead text pos (c :: rest)) :
    Tracks text (parseElement text (lead c) (.ofText text (pos + 1))) (readElement pos c rest) := by
  unfold parseElement readElement
  simp only [lead_eq_iff (show IsAscii 'L' by decide), lead_eq_iff (show IsAscii 'V' by decide),
    ofLetter?_lead]
  -- a class, then void, then a letter, as both sides ask in this order
  by_cases hL : c = 'L'
  · subst hL
    rw [if_pos rfl, if_pos rfl]
    have hname := tracks_parseClassName hword (h.next (by decide))
    cases hdrop : rest.dropWhile (· != ';') with
    | nil =>
      rw [hdrop] at hname
      refine hname.bind ?_ fun _ _ _ hok => by cases hok
      rintro _ ⟨⟩
      rfl
    | cons d behind =>
      rw [hdrop] at hname
      simp only at hname ⊢
      by_cases hempty : (rest.takeWhile (· != ';')).isEmpty = true
      · rw [if_pos hempty] at hname ⊢
        refine hname.bind ?_ fun _ _ _ hok => by cases hok
        rintro _ ⟨⟩
        rfl
      · rw [if_neg hempty] at hname ⊢
        refine hname.bind (fun _ herror => by cases herror) ?_
        rintro _ _ _ ⟨⟩ hahead
        rw [show pos + byteLength (rest.takeWhile (· != ';')) + 2 =
          pos + 1 + byteLength (rest.takeWhile (· != ';')) + 1 by omega]
        exact .value hahead
  rw [if_neg hL, if_neg hL]
  by_cases hV : c = 'V'
  · rw [if_pos hV, if_pos hV]
    exact .fault
  rw [if_neg hV, if_neg hV]
  cases hletter : Primitive.ofLetter? c with
  | none => exact .fault
  | some p =>
    have hc : IsAscii c := by
      rw [← Primitive.letter_of_ofLetter? hletter]
      cases p <;> decide
    exact .value (h.next hc)

omit hword in
/-- Layers end at anything that is no bracket. -/
theorem layerRound_other {n : Nat} {p : Parser} (hc : c ≠ '[') :
    layerRound text (n, lead c) p = .ok (.inr (n, lead c)) p := by
  unfold layerRound
  simp only [lead_eq_iff (show IsAscii '[' by decide), if_neg hc]
  rfl

omit hword in
/-- A round at a bracket counts a layer, and goes on with the next byte. -/
theorem layerRound_bracket {n : Nat} (hn : n < maxDimensions) :
    layerRound text (n, lead '[') = (do return .inl (n + 1, ← nextByte text)) := by
  have hadd : add n 1 = .ok (n + 1) := by
    rw [maxDimensions] at hn
    exact add_eq_ok (by rw [wordLimit, UInt64.size]; omega)
  unfold layerRound
  simp only [lead_of_ascii (show IsAscii '[' by decide), if_true, hadd, check_ok_bind]
  rw [if_neg (by omega)]

omit hword in
theorem layerRound_full : layerRound text (maxDimensions, lead '[') =
    descriptorFault text .tooManyDimensions := by
  have hadd : add maxDimensions 1 = .ok (maxDimensions + 1) := add_eq_ok (by decide)
  unfold layerRound
  simp only [lead_of_ascii (show IsAscii '[' by decide), if_true, hadd, check_ok_bind]
  rw [if_pos (by omega)]

/-- Layers are parsed one by one, each from the byte of its bracket on. -/
theorem tracks_layers {dimensions : Nat} (hroom : dimensions ≤ maxDimensions)
    (h : Ahead text pos (c :: rest)) :
    Tracks text
      ((do
        let s ← rounds (fun _ p => p.left) (layerRound text) (dimensions, lead c)
        let element ← parseElement text s.2
        return ⟨s.1, element⟩ : Parsing FieldType) (.ofText text (pos + 1)))
      (readType dimensions pos (c :: rest)) := by
  -- every layer takes a character
  generalize hcs : c :: rest = cs at h
  induction cs generalizing dimensions pos c rest with
  | nil => cases hcs
  | cons d cs ih =>
    obtain ⟨rfl, rfl⟩ := List.cons.inj hcs
    rw [readType]
    by_cases hc : c = '['
    · subst hc
      rw [if_pos rfl]
      have hahead : Ahead text (pos + 1) rest := h.next (by decide)
      by_cases hmax : dimensions < maxDimensions
      · rw [if_pos hmax]
        cases rest with
        | nil =>
          have hround : layerRound text (dimensions, lead '[') (.ofText text (pos + 1)) =
              .error (.fault (.descriptor .unexpectedEnd (pos + 1) text))
                (.ofText text (pos + 1)) := by
            rw [layerRound_bracket hmax]
            exact bind_of_error _ (nextByte_at_end hahead)
          rw [bind_of_error _ (rounds_halt hround)]
          exact .fault
        | cons c' rest =>
          have hround : layerRound text (dimensions, lead '[') (.ofText text (pos + 1)) =
              .ok (.inl (dimensions + 1, lead c')) (.ofText text (pos + 1 + 1)) := by
            rw [layerRound_bracket hmax]
            exact bind_of_ok _ (nextByte_ofText hword hahead)
          rw [bind_of_eq _ (rounds_next hround (left_lt hahead))]
          exact ih hmax rfl hahead
      · obtain rfl : dimensions = maxDimensions := by omega
        have hround : layerRound text (maxDimensions, lead '[') (.ofText text (pos + 1)) =
            .error (.fault (.descriptor .tooManyDimensions (pos + 1) text))
              (.ofText text (pos + 1)) := by
          rw [layerRound_full]
          rfl
        rw [if_neg hmax, bind_of_error _ (rounds_halt hround)]
        exact .fault
    · rw [if_neg hc, bind_of_ok _ (rounds_done (layerRound_other hc))]
      refine (tracks_parseElement hword h).bind ?_ ?_
      · rintro _ herror
        rw [herror]
      · rintro _ _ _ hok hahead
        rw [hok]
        exact .value hahead

/-- A field type is parsed as it is read. -/
theorem tracks_parseType (h : Ahead text pos cs) :
    Tracks text (parseType text (.ofText text pos)) (readType 0 pos cs) := by
  cases cs with
  | nil =>
    rw [parseType, bind_of_error _ (nextByte_at_end h)]
    exact .fault
  | cons c rest =>
    rw [parseType, bind_of_ok _ (nextByte_ofText hword h)]
    exact tracks_layers hword (Nat.zero_le _) h

omit hword in
/-- A list of parameters that is not closed is a fault. -/
theorem parameterRound_end {seen : Array FieldType} (h : Ahead text pos []) :
    parameterRound text seen (.ofText text pos) =
      .error (.fault (.descriptor .unterminatedParameterList pos text)) (.ofText text pos) := by
  rw [parameterRound, bind_of_ok _ (peekByte_ofText h)]
  rfl

theorem parameterRound_close {seen : Array FieldType} (h : Ahead text pos (')' :: rest)) :
    parameterRound text seen (.ofText text pos) =
      .ok (.inr seen) (.ofText text (pos + 1)) := by
  rw [parameterRound, bind_of_ok _ (peekByte_ofText h)]
  simp only [List.head?_cons, Option.map_some, lead_of_ascii (show IsAscii ')' by decide), if_true]
  exact bind_of_ok _ (passByte_ofText hword h)

omit hword in
/-- Anything else is one more parameter. -/
theorem parameterRound_more (seen : Array FieldType) (h : Ahead text pos (c :: rest))
    (hc : c ≠ ')') : parameterRound text seen (.ofText text pos) =
      (do return .inl (seen.push (← parseType text)) : Parsing _) (.ofText text pos) := by
  rw [parameterRound, bind_of_ok _ (peekByte_ofText h)]
  simp only [List.head?_cons, Option.map_some, lead_eq_iff (show IsAscii ')' by decide), if_neg hc]

omit hword in
/-- Behind a type that has been read, less lies ahead. -/
theorem left_lt_of_readType {pos' : Nat} {t : FieldType}
    (hread : readType 0 pos cs = .ok ⟨t, pos', rest⟩) (h : Ahead text pos cs) :
    rest.length < cs.length ∧ (Parser.ofText text pos').left < (Parser.ofText text pos).left := by
  obtain ⟨-, rfl, rfl⟩ := readType_eq_ok.mp hread
  have hrender := length_render_pos t
  have hlength := h.length_eq
  have hbytes : t.render.length ≤ (utf8 t.render).length := length_le_utf8 t.render
  rw [utf8_append, List.length_append] at hlength
  rw [length_utf8] at hbytes
  rw [length_utf8 t.render] at hlength
  simp only [List.length_append, Parser.left, Parser.ofText]
  omega

/-- Parameters are parsed one by one up to the parenthesis. -/
theorem tracks_parameters {fuel : Nat} {seen : Array FieldType} (hfuel : cs.length < fuel)
    (h : Ahead text pos cs) :
    Tracks text (rounds (fun _ p => p.left) (parameterRound text) seen (.ofText text pos))
      (readParameters fuel seen pos cs) := by
  -- the fuel bounds the letters ahead, and every parameter takes one of them
  induction fuel generalizing seen pos cs with
  | zero => exact absurd hfuel (Nat.not_lt_zero _)
  | succ fuel ih =>
    cases cs with
    | nil =>
      rw [rounds_halt (parameterRound_end h)]
      exact .fault
    | cons c rest =>
      rw [readParameters]
      by_cases hc : c = ')'
      · subst hc
        rw [if_pos rfl, rounds_done (parameterRound_close hword h)]
        exact .value (h.next (by decide))
      · rw [if_neg hc]
        have htype := tracks_parseType hword h
        generalize hparse : parseType text (.ofText text pos) = x at htype
        generalize hread : readType 0 pos (c :: rest) = y at htype
        have hround := parameterRound_more seen h hc
        cases htype with
        | @value t pos' rest' ahead =>
          rw [bind_of_ok _ hparse] at hround
          obtain ⟨hshorter, hless⟩ := left_lt_of_readType hread h
          rw [rounds_next hround hless]
          exact ih (Nat.lt_of_lt_of_le hshorter (Nat.le_of_lt_succ hfuel)) ahead
        | fault =>
          rw [bind_of_error _ hparse] at hround
          rw [rounds_halt hround]
          exact .fault

/-- A return type is parsed as it is read. -/
theorem tracks_parseReturnType (h : Ahead text pos cs) :
    Tracks text (parseReturnType text (.ofText text pos)) (readResult pos cs) := by
  rw [parseReturnType, bind_of_ok _ (peekByte_ofText h)]
  cases cs with
  | nil => exact tracks_parseType hword h
  | cons c rest =>
    have hbyte : (c :: rest).head?.map lead = some (asciiByte 'V') ↔ c = 'V' :=
      Option.some_inj.trans (lead_eq_iff (by decide))
    rw [readResult]
    by_cases hc : c = 'V'
    · rw [if_pos (hbyte.mpr hc), if_pos hc, bind_of_ok _ (passByte_ofText hword h)]
      subst hc
      exact .value (h.next (by decide))
    · rw [if_neg (mt hbyte.mp hc), if_neg hc]
      exact tracks_parseType hword h

/-- The types of a method are parsed as they are read. -/
theorem tracks_parseMethod (h : Ahead text 0 cs) :
    Tracks text (parseMethod text (.ofText text 0)) (Descriptor.readMethod cs) := by
  cases cs with
  | nil =>
    rw [parseMethod, bind_of_error _ (nextByte_at_end h)]
    exact .fault
  | cons c rest =>
    rw [parseMethod, bind_of_ok _ (nextByte_ofText hword h), Descriptor.readMethod]
    simp only [lead_eq_iff (show IsAscii '(' by decide)]
    by_cases hc : c = '('
    · subst hc
      rw [if_pos rfl, if_pos rfl]
      -- the parameters are tracked, and the result from where they end
      refine (tracks_parameters hword (Nat.lt_succ_self _) (h.next (by decide))).bind ?_ ?_
      · rintro _ herror
        rw [herror]
      · rintro parameters pos behind hok hahead
        rw [hok]
        simp only
        refine (tracks_parseReturnType hword hahead).bind ?_ ?_
        · rintro _ herror
          rw [herror]
        · rintro result pos' behind' hok' hahead'
          rw [hok']
          exact .value hahead'
    · rw [if_neg hc, if_neg hc]
      exact .fault

-- ---------------------------------------------------------------------------
-- Whole descriptors
-- ---------------------------------------------------------------------------

omit hword in
/-- What is parsed is a whole text if what is read is one. -/
theorem run_parseWhole {α : Type} {m : Parsing α} {y : Except Stop (Step α)}
    (h : Tracks text (m (.ofText text 0)) y) :
    (parseWhole text m).run (utf8 text.toList) = total (Descriptor.whole text y) := by
  generalize hm : m (.ofText text 0) = x at h
  cases h with
  | @value a pos rest ahead =>
    have hmore : hasMoreData (.ofText text pos) =
        .ok (decide (pos < (utf8 text.toList).length)) (.ofText text pos) := rfl
    have hend : parseWhole text m (.ofText text 0) =
        (if pos < (utf8 text.toList).length then descriptorFault text .trailingText
          else pure a : Parsing α) (.ofText text pos) := by
      rw [parseWhole, bind_of_ok _ hm, bind_of_ok _ hmore]
      simp only [decide_eq_true_eq]
    have hlength := ahead.length_eq
    -- whatever is left behind is one fault, and nothing left is success
    cases rest with
    | nil =>
      have hat : ¬ pos < (utf8 text.toList).length := Nat.not_lt_of_le (Nat.le_of_eq hlength)
      rw [if_neg hat] at hend
      exact run_of_ok hend
    | cons c rest =>
      have hpos := length_utf8_pos c rest
      rw [if_pos (by omega)] at hend
      exact run_of_error hend
  | fault => exact run_of_error (bind_of_error _ hm)

/-- Field descriptors are read as they are defined to be, with no step undefined. -/
theorem parseFieldDescriptor_eq : parseFieldDescriptor text = total (FieldType.parse text) :=
  run_parseWhole (tracks_parseType hword (.start text))

theorem parseMethodDescriptor_eq : parseMethodDescriptor text = total (MethodType.parse text) :=
  run_parseWhole (tracks_parseMethod hword (.start text))

theorem parseClassOperand_eq : parseClassOperand text = total (FieldType.ofOperand text) := by
  unfold parseClassOperand FieldType.ofOperand
  cases text.toList with
  | nil => rfl
  | cons c rest =>
    simp only
    by_cases hc : c = '['
    · rw [if_pos hc, if_pos hc, parseFieldDescriptor_eq hword]
    · rw [if_neg hc, if_neg hc]
      rfl

end Steps

end Backref.Machine
