import Backref.Descriptor.Parse

/-!
# The grammar of descriptors

Which types are well formed, and that the readers accept exactly the
spellings of well-formed types. A spelling can be read in one way only, so
reading yields the type whose spelling is the text.

Main results:

* `Descriptor.readType_eq_ok`, `Descriptor.readMethod_eq_ok` — a reader
  succeeds exactly on a spelling, and stops right behind it;
* `FieldType.parse_eq_ok`, `MethodType.parse_eq_ok` — the same for whole texts.
-/

namespace Backref

-- ---------------------------------------------------------------------------
-- Well-formed types
-- ---------------------------------------------------------------------------

/-- An element type that a field can have: `void` is none, and the name of a
class is not empty and does not contain the character that ends it. -/
def ElementType.WellFormed : ElementType → Prop
  | primitive p => p ≠ .void
  | object name => name ≠ "" ∧ ';' ∉ name.toList

/-- A type that a field can have. -/
def FieldType.WellFormed (t : FieldType) : Prop :=
  t.dimensions ≤ Descriptor.maxDimensions ∧ t.element.WellFormed

/-- A type that a method can return. -/
def FieldType.Returnable (t : FieldType) : Prop := t.WellFormed ∨ t = .void

/-- The types that a method can have. -/
def MethodType.WellFormed (m : MethodType) : Prop :=
  (∀ t ∈ m.parameters, t.WellFormed) ∧ m.result.Returnable

/-- A text is the descriptor of a field's type. -/
def FieldType.SpelledBy (t : FieldType) (text : String) : Prop :=
  t.WellFormed ∧ t.render = text.toList

/-- A text is the descriptor of a method's types. -/
def MethodType.SpelledBy (m : MethodType) (text : String) : Prop :=
  m.WellFormed ∧ m.render = text.toList

/-- A text is the operand of a class instruction: an array type is spelled
out, a class goes by its bare name. -/
def FieldType.NamedBy (t : FieldType) (text : String) : Prop :=
  if text.toList.head? = some '[' then t.SpelledBy text
  else text ≠ "" ∧ t = ⟨0, .object text⟩

namespace Descriptor

@[simp] theorem byteLength_nil : byteLength [] = 0 := rfl

@[simp] theorem byteLength_cons (c : Char) (cs : List Char) :
    byteLength (c :: cs) = c.utf8Size + byteLength cs := by
  simp [byteLength]

@[simp] theorem byteLength_append (as bs : List Char) :
    byteLength (as ++ bs) = byteLength as + byteLength bs := by
  simp [byteLength]

-- ---------------------------------------------------------------------------
-- Element types
-- ---------------------------------------------------------------------------

theorem letter_ne_L (p : Primitive) : p.letter ≠ 'L' := by cases p <;> decide

/-- The letter of void stands for nothing else. -/
theorem letter_eq_V {p : Primitive} : p.letter = 'V' ↔ p = .void := by cases p <;> decide

theorem byteLength_primitive (p : Primitive) :
    byteLength (ElementType.primitive p).render = 1 := by
  cases p <;> decide

theorem byteLength_object (name : String) :
    byteLength (ElementType.object name).render = byteLength name.toList + 2 := by
  have hL : 'L'.utf8Size = 1 := by decide
  have hsemicolon : ';'.utf8Size = 1 := by decide
  simp [ElementType.render, hL, hsemicolon]
  omega

/-- The characters up to the first semicolon, and what stands behind it. -/
theorem span_name {cs name rest : List Char} (h : ';' ∉ name) :
    cs = name ++ ';' :: rest ↔
      cs.takeWhile (· != ';') = name ∧ cs.dropWhile (· != ';') = ';' :: rest := by
  constructor
  · rintro rfl
    have hall : ∀ c ∈ name, (c != ';') = true := by
      intro c hc
      simp only [bne_iff_ne, ne_eq]
      rintro rfl
      exact h hc
    rw [List.takeWhile_append_of_pos hall, List.dropWhile_append_of_pos hall]
    simp
  · rintro ⟨htake, hdrop⟩
    rw [← List.takeWhile_append_dropWhile (p := (· != ';')) (l := cs), htake, hdrop]

/-- The first character that is dropped is a semicolon. -/
theorem head_dropWhile {cs rest : List Char} {c : Char}
    (h : cs.dropWhile (· != ';') = c :: rest) : c = ';' := by
  have hhead := List.head?_dropWhile_not (· != ';') cs
  rw [h] at hhead
  simpa using hhead

/-- What comes before the first semicolon has none. -/
theorem not_mem_takeWhile (cs : List Char) : ';' ∉ cs.takeWhile (· != ';') := by
  intro h
  have hall := List.all_eq_true.mp (List.all_takeWhile (p := (· != ';')) (l := cs)) _ h
  simp at hall

/-- What is read is an element type, and its spelling is what was passed. -/
theorem spelled_of_readElement {pos pos' : Nat} {c : Char} {rest rest' : List Char}
    {e : ElementType} (h : readElement pos c rest = .ok ⟨e, pos', rest'⟩) :
    e.WellFormed ∧ c :: rest = e.render ++ rest' ∧ pos' = pos + byteLength e.render := by
  unfold readElement at h
  by_cases hL : c = 'L'
  · -- a class: its name reaches to the first semicolon
    subst hL
    rw [if_pos rfl] at h
    simp only at h
    split at h
    · cases h
    · rename_i c' rest'' hdrop
      split at h
      · cases h
      · rename_i hname
        cases h
        have hsemicolon : ';' ∉ rest.takeWhile (· != ';') := not_mem_takeWhile rest
        obtain rfl := head_dropWhile hdrop
        refine ⟨⟨?_, ?_⟩, ?_, ?_⟩
        · intro hempty
          apply hname
          simpa using congrArg String.toList hempty
        · simpa using hsemicolon
        · simpa [ElementType.render] using (span_name hsemicolon).mpr ⟨rfl, hdrop⟩
        · rw [byteLength_object, String.toList_ofList]
          omega
  · rw [if_neg hL] at h
    -- void is no type of an element, and what is left is a letter or nothing
    by_cases hV : c = 'V'
    · rw [if_pos hV] at h
      cases h
    · rw [if_neg hV] at h
      cases hp : Primitive.ofLetter? c with
      | none =>
        rw [hp] at h
        cases h
      | some p =>
        rw [hp] at h
        cases h
        have hletter : p.letter = c := Primitive.letter_of_ofLetter? hp
        refine ⟨?_, ?_, ?_⟩
        · rintro rfl
          exact hV hletter.symm
        · simp [ElementType.render, hletter]
        · rw [byteLength_primitive]

/-- The spelling of an element type is read. -/
theorem readElement_of_spelled {pos : Nat} {c : Char} {rest rest' : List Char} {e : ElementType}
    (hwf : e.WellFormed) (h : c :: rest = e.render ++ rest') :
    readElement pos c rest = .ok ⟨e, pos + byteLength e.render, rest'⟩ := by
  unfold readElement
  cases e with
  | primitive p =>
    obtain ⟨rfl, rfl⟩ := List.cons.inj h
    have hV : p.letter ≠ 'V' := fun hvoid => hwf (letter_eq_V.mp hvoid)
    rw [if_neg (letter_ne_L p), if_neg hV, Primitive.ofLetter?_letter, byteLength_primitive]
  | object name =>
    obtain ⟨hname, hnone⟩ := hwf
    simp only [ElementType.render, List.cons_append, List.append_assoc, List.nil_append,
      List.cons.injEq] at h
    obtain ⟨rfl, hrest⟩ := h
    -- the name has no semicolon, so it ends at the first one
    obtain ⟨htake, hdrop⟩ := (span_name hnone).mp hrest
    have hfull : name.toList.isEmpty = false := by simpa using hname
    rw [byteLength_object]
    simp [hdrop, htake, hfull, Nat.add_assoc]

-- ---------------------------------------------------------------------------
-- Field types
-- ---------------------------------------------------------------------------

/-- A type starts neither like an array layer nor like the end of a parameter list. -/
theorem exists_render_element (e : ElementType) :
    ∃ c cs, e.render = c :: cs ∧ c ≠ '[' ∧ c ≠ ')' := by
  cases e with
  | primitive p => exact ⟨p.letter, [], rfl, by cases p <;> decide, by cases p <;> decide⟩
  | object name => exact ⟨'L', name.toList ++ [';'], rfl, by decide, by decide⟩

/-- A type that is read below some layers has been spelled by more layers and an element. -/
theorem spelled_of_readType_under {dimensions pos pos' : Nat} {cs rest : List Char}
    {t : FieldType} (hroom : dimensions ≤ maxDimensions)
    (h : readType dimensions pos cs = .ok ⟨t, pos', rest⟩) :
    ∃ layers, t.dimensions = dimensions + layers ∧ t.WellFormed ∧
      cs = List.replicate layers '[' ++ (t.element.render ++ rest) ∧
      pos' = pos + layers + byteLength t.element.render := by
  induction cs generalizing dimensions pos with
  | nil => cases h
  | cons c cs ih =>
    rw [readType] at h
    by_cases hc : c = '['
    · subst hc
      rw [if_pos rfl] at h
      by_cases hlt : dimensions < maxDimensions
      · -- one more layer
        rw [if_pos hlt] at h
        obtain ⟨layers, hn, hwf, rfl, rfl⟩ := ih hlt h
        refine ⟨layers + 1, by omega, hwf, ?_, by omega⟩
        rw [List.replicate_succ, List.cons_append]
      · rw [if_neg hlt] at h
        cases h
    · rw [if_neg hc] at h
      cases hread : readElement pos c cs with
      | error stop =>
        rw [hread] at h
        cases h
      | ok s =>
        rw [hread] at h
        cases h
        obtain ⟨hwf, hcs, hpos⟩ := spelled_of_readElement hread
        exact ⟨0, rfl, ⟨hroom, hwf⟩, hcs, hpos⟩

/-- Layers and an element that are spelled out are read, as long as there are not too many. -/
theorem readType_of_layers {dimensions pos layers : Nat} {rest : List Char} {e : ElementType}
    (hwf : e.WellFormed) (hroom : dimensions + layers ≤ maxDimensions) :
    readType dimensions pos (List.replicate layers '[' ++ (e.render ++ rest)) =
      .ok ⟨⟨dimensions + layers, e⟩, pos + layers + byteLength e.render, rest⟩ := by
  -- the induction is on the layers that are still to be read
  induction layers generalizing dimensions pos with
  | zero =>
    obtain ⟨first, others, he, hbracket, -⟩ := exists_render_element e
    have helement : first :: (others ++ rest) = e.render ++ rest := by rw [he, List.cons_append]
    rw [List.replicate_zero, List.nil_append, ← helement, readType, if_neg hbracket,
      readElement_of_spelled hwf helement]
    rfl
  | succ layers ih =>
    rw [List.replicate_succ, List.cons_append, readType, if_pos rfl, if_pos (by omega),
      ih (by omega), Nat.add_right_comm dimensions, Nat.add_right_comm pos]
    rfl

theorem byteLength_render (t : FieldType) :
    byteLength t.render = t.dimensions + byteLength t.element.render := by
  have hbracket : '['.utf8Size = 1 := by decide
  simp [FieldType.render, byteLength, hbracket]

/-- A type is read exactly where it is spelled. -/
theorem readType_eq_ok {pos pos' : Nat} {cs rest : List Char} {t : FieldType} :
    readType 0 pos cs = .ok ⟨t, pos', rest⟩ ↔
      t.WellFormed ∧ cs = t.render ++ rest ∧ pos' = pos + byteLength t.render := by
  rw [byteLength_render, FieldType.render]
  constructor
  · intro h
    obtain ⟨layers, hn, hwf, rfl, rfl⟩ := spelled_of_readType_under (Nat.zero_le _) h
    rw [Nat.zero_add] at hn
    rw [hn, List.append_assoc]
    exact ⟨hwf, rfl, by omega⟩
  · rintro ⟨hwf, rfl, rfl⟩
    -- a well-formed type has no more layers than are allowed
    have hroom : 0 + t.dimensions ≤ maxDimensions := by
      rw [Nat.zero_add]
      exact hwf.1
    rw [List.append_assoc, readType_of_layers hwf.2 hroom, Nat.zero_add, Nat.add_assoc]

-- ---------------------------------------------------------------------------
-- Method types
-- ---------------------------------------------------------------------------

/-- No type starts like the end of the parameters. -/
theorem exists_render (t : FieldType) : ∃ c cs, t.render = c :: cs ∧ c ≠ ')' := by
  obtain ⟨n, e⟩ := t
  obtain ⟨first, others, he, -, hparen⟩ := exists_render_element e
  cases n with
  | zero => exact ⟨first, others, by simp [FieldType.render, he], hparen⟩
  | succ n =>
    exact ⟨'[', List.replicate n '[' ++ e.render, by simp [FieldType.render, List.replicate_succ],
      by decide⟩

/-- No type is spelled by nothing. -/
theorem length_render_pos (t : FieldType) : 0 < t.render.length := by
  obtain ⟨first, others, ht, -⟩ := exists_render t
  rw [ht]
  exact Nat.succ_pos _

/-- Parameters that are read have been spelled one after the other, up to the parenthesis. -/
theorem spelled_of_readParameters {fuel pos pos' : Nat} {cs rest : List Char}
    {seen ts : Array FieldType} (h : readParameters fuel seen pos cs = .ok ⟨ts, pos', rest⟩) :
    ∃ more : List FieldType, ts = seen ++ more ∧ (∀ t ∈ more, t.WellFormed) ∧
      cs = more.flatMap FieldType.render ++ ')' :: rest ∧
      pos' = pos + byteLength (more.flatMap FieldType.render) + 1 := by
  induction fuel generalizing seen pos cs with
  | zero => cases h
  | succ fuel ih =>
    cases cs with
    | nil => cases h
    | cons c cs =>
      rw [readParameters] at h
      by_cases hc : c = ')'
      · rw [if_pos hc] at h
        cases h
        exact ⟨[], by simp, by simp, by rw [hc]; rfl, rfl⟩
      · rw [if_neg hc] at h
        cases hread : readType 0 pos (c :: cs) with
        | error stop =>
          rw [hread] at h
          cases h
        | ok s =>
          -- one parameter, then those behind it
          rw [hread] at h
          simp only at h
          obtain ⟨hwf, hcs, hpos⟩ := readType_eq_ok.mp hread
          obtain ⟨more, rfl, hmore, hrest, rfl⟩ := ih h
          refine ⟨s.value :: more, by simp, ?_, ?_, ?_⟩
          · intro t ht
            rcases List.mem_cons.mp ht with rfl | hlater
            · exact hwf
            · exact hmore t hlater
          · rw [hcs, hrest, List.flatMap_cons, List.append_assoc]
          · rw [hpos, List.flatMap_cons, byteLength_append]
            omega

/-- Parameters that are spelled out are read, given fuel for their letters. -/
theorem readParameters_of_spelled {fuel pos : Nat} {ts : List FieldType} {rest : List Char}
    {seen : Array FieldType} (hwf : ∀ t ∈ ts, t.WellFormed)
    (hfuel : (ts.flatMap FieldType.render).length < fuel) :
    readParameters fuel seen pos (ts.flatMap FieldType.render ++ ')' :: rest) =
      .ok ⟨seen ++ ts, pos + byteLength (ts.flatMap FieldType.render) + 1, rest⟩ := by
  induction ts generalizing fuel seen pos with
  | nil =>
    obtain ⟨fuel, rfl⟩ := Nat.exists_eq_succ_of_ne_zero (Nat.ne_of_gt hfuel)
    simp [readParameters, byteLength]
  | cons t ts ih =>
    obtain ⟨fuel, rfl⟩ := Nat.exists_eq_succ_of_ne_zero (Nat.ne_of_gt (Nat.zero_lt_of_lt hfuel))
    obtain ⟨first, others, ht, hparen⟩ := exists_render t
    have hpositive := length_render_pos t
    rw [List.flatMap_cons, List.length_append] at hfuel
    -- the first character is not the closing parenthesis, so a type is read
    have hread : readType 0 pos
        (first :: (others ++ (ts.flatMap FieldType.render ++ ')' :: rest))) =
        .ok ⟨t, pos + byteLength t.render, ts.flatMap FieldType.render ++ ')' :: rest⟩ := by
      refine readType_eq_ok.mpr ⟨hwf t List.mem_cons_self, ?_, rfl⟩
      rw [ht, List.cons_append]
    have hshort : (ts.flatMap FieldType.render).length < fuel := by omega
    have hothers := fun seen pos =>
      @ih fuel pos seen (fun t' ht' => hwf t' (List.mem_cons_of_mem t ht')) hshort
    rw [List.flatMap_cons, byteLength_append, List.append_assoc]
    rw [ht, List.cons_append, readParameters, if_neg hparen, hread, ← ht]
    simp only
    rw [hothers]
    simp [Nat.add_assoc]

/-- A result is read exactly where it is spelled; it may be void. -/
theorem readResult_eq_ok {pos pos' : Nat} {cs rest : List Char} {t : FieldType} :
    readResult pos cs = .ok ⟨t, pos', rest⟩ ↔
      t.Returnable ∧ cs = t.render ++ rest ∧ pos' = pos + byteLength t.render := by
  have hvoid : FieldType.render .void = ['V'] := rfl
  cases cs with
  | nil =>
    constructor
    · intro h
      cases h
    · rintro ⟨-, h, -⟩
      obtain ⟨first, others, ht, -⟩ := exists_render t
      rw [ht] at h
      cases h
  | cons c cs =>
    rw [readResult]
    -- void is tried first; anything else is a field type
    by_cases hc : c = 'V'
    · subst hc
      rw [if_pos rfl]
      constructor
      · intro h
        cases h
        exact ⟨.inr rfl, rfl, rfl⟩
      · rintro ⟨hreturn, h, rfl⟩
        rcases hreturn with hwf | rfl
        · -- no type that a field can have starts with this letter
          have hread : readType 0 pos ('V' :: cs) = .ok ⟨t, pos + byteLength t.render, rest⟩ :=
            readType_eq_ok.mpr ⟨hwf, h, rfl⟩
          cases hread
        · obtain rfl := (List.cons.inj h).2
          rfl
    · rw [if_neg hc, readType_eq_ok]
      constructor
      · rintro ⟨hwf, h⟩
        exact ⟨.inl hwf, h⟩
      · rintro ⟨hwf | rfl, h, hpos⟩
        · exact ⟨hwf, h, hpos⟩
        · exact absurd (List.cons.inj h).1 hc

theorem byteLength_renderMethod (m : MethodType) :
    byteLength m.render =
      byteLength (m.parameters.flatMap FieldType.render) + byteLength m.result.render + 2 := by
  have hopening : '('.utf8Size = 1 := by decide
  have hclosing : ')'.utf8Size = 1 := by decide
  simp only [MethodType.render, byteLength_cons, byteLength_append, hopening, hclosing]
  omega

/-- A method type that is read has been spelled. -/
theorem spelled_of_readMethod {pos' : Nat} {cs rest : List Char} {m : MethodType}
    (h : readMethod cs = .ok ⟨m, pos', rest⟩) :
    m.WellFormed ∧ cs = m.render ++ rest ∧ pos' = byteLength m.render := by
  cases cs with
  | nil => cases h
  | cons c cs =>
    rw [readMethod] at h
    by_cases hc : c = '('
    · subst hc
      rw [if_pos rfl] at h
      -- the parameters and the result may each be refused
      cases hparameters : readParameters (cs.length + 1) #[] 1 cs with
      | error stop =>
        rw [hparameters] at h
        cases h
      | ok parameters =>
        rw [hparameters] at h
        simp only at h
        obtain ⟨more, hmore, hwf, hcs, hpos⟩ := spelled_of_readParameters hparameters
        cases hresult : readResult parameters.pos parameters.rest with
        | error stop =>
          rw [hresult] at h
          cases h
        | ok result =>
          rw [hresult] at h
          cases h
          obtain ⟨hreturn, hrest, hpos'⟩ := readResult_eq_ok.mp hresult
          have hlist : parameters.value.toList = more := by simp [hmore]
          rw [byteLength_renderMethod, hlist]
          refine ⟨⟨hwf, hreturn⟩, ?_, ?_⟩
          · simp [MethodType.render, hcs, hrest]
          · show result.pos = byteLength (more.flatMap FieldType.render) +
              byteLength result.value.render + 2
            omega
    · rw [if_neg hc] at h
      cases h

/-- A method type that is spelled out is read. -/
theorem readMethod_of_spelled {rest : List Char} {m : MethodType} (hwf : m.WellFormed) :
    readMethod (m.render ++ rest) = .ok ⟨m, byteLength m.render, rest⟩ := by
  have hrender : m.render ++ rest =
      '(' :: (m.parameters.flatMap FieldType.render ++ ')' :: (m.result.render ++ rest)) := by
    simp [MethodType.render]
  have hresult : ∀ pos, readResult pos (m.result.render ++ rest) =
      .ok ⟨m.result, pos + byteLength m.result.render, rest⟩ :=
    fun pos => readResult_eq_ok.mpr ⟨hwf.2, rfl, rfl⟩
  -- every parameter takes a letter, so the letters are fuel enough
  have hfuel : (m.parameters.flatMap FieldType.render).length <
      (m.parameters.flatMap FieldType.render ++ ')' :: (m.result.render ++ rest)).length + 1 := by
    rw [List.length_append]
    omega
  rw [hrender, readMethod, if_pos rfl, readParameters_of_spelled hwf.1 hfuel]
  simp only
  have hlist : ((#[] : Array FieldType) ++ m.parameters).toList = m.parameters := by simp
  have hpos : 1 + byteLength (m.parameters.flatMap FieldType.render) + 1 +
      byteLength m.result.render = byteLength m.render := by
    rw [byteLength_renderMethod]
    omega
  rw [hresult, hlist, hpos]

/-- A method type is read exactly where it is spelled. -/
theorem readMethod_eq_ok {pos' : Nat} {cs rest : List Char} {m : MethodType} :
    readMethod cs = .ok ⟨m, pos', rest⟩ ↔
      m.WellFormed ∧ cs = m.render ++ rest ∧ pos' = byteLength m.render := by
  constructor
  · exact spelled_of_readMethod
  · rintro ⟨hwf, rfl, rfl⟩
    exact readMethod_of_spelled hwf

-- ---------------------------------------------------------------------------
-- Whole texts
-- ---------------------------------------------------------------------------

/-- A text is read as a whole when nothing is left of it. -/
theorem whole_eq_ok {α : Type} {text : String} {r : Except Stop (Step α)} {a : α} :
    whole text r = .ok a ↔ ∃ pos, r = .ok ⟨a, pos, []⟩ := by
  cases r with
  | error stop =>
    constructor
    · intro h
      cases h
    · rintro ⟨_, h⟩
      cases h
  | ok s =>
    obtain ⟨value, pos, rest⟩ := s
    cases rest with
    | nil => simp [whole]
    | cons c rest => simp [whole]

end Descriptor

open Descriptor

/-- A text is read as the well-formed type that it spells, and as nothing else. -/
theorem FieldType.parse_eq_ok {text : String} {t : FieldType} :
    parse text = .ok t ↔ t.SpelledBy text := by
  rw [parse, whole_eq_ok]
  simp only [readType_eq_ok, List.append_nil]
  constructor
  · rintro ⟨pos, hwf, htext, -⟩
    exact ⟨hwf, htext.symm⟩
  · rintro ⟨hwf, htext⟩
    exact ⟨_, hwf, htext.symm, rfl⟩

/-- A text is read as the well-formed method type that it spells, and as nothing else. -/
theorem MethodType.parse_eq_ok {text : String} {m : MethodType} :
    parse text = .ok m ↔ m.SpelledBy text := by
  rw [parse, whole_eq_ok]
  simp only [readMethod_eq_ok, List.append_nil]
  constructor
  · rintro ⟨pos, hwf, htext, -⟩
    exact ⟨hwf, htext.symm⟩
  · rintro ⟨hwf, htext⟩
    exact ⟨_, hwf, htext.symm, rfl⟩

/-- An operand is read exactly where it names a type. -/
theorem FieldType.ofOperand_eq_ok {text : String} {t : FieldType} :
    ofOperand text = .ok t ↔ t.NamedBy text := by
  unfold ofOperand NamedBy
  cases htext : text.toList with
  | nil =>
    obtain rfl : text = "" := String.toList_eq_nil_iff.mp htext
    simp
  | cons c cs =>
    have hne : text ≠ "" := by
      rintro rfl
      simp at htext
    by_cases hc : c = '['
    · simp [hc, FieldType.parse_eq_ok]
    · simp [hc, hne, eq_comm]

-- ---------------------------------------------------------------------------
-- One reading at most
-- ---------------------------------------------------------------------------

theorem FieldType.SpelledBy.unique {text : String} {t t' : FieldType} (h : t.SpelledBy text)
    (h' : t'.SpelledBy text) : t = t' := by
  have hparse := parse_eq_ok.mpr h
  rwa [parse_eq_ok.mpr h', Except.ok.injEq, eq_comm] at hparse

theorem MethodType.SpelledBy.unique {text : String} {m m' : MethodType} (h : m.SpelledBy text)
    (h' : m'.SpelledBy text) : m = m' := by
  have hparse := parse_eq_ok.mpr h
  rwa [parse_eq_ok.mpr h', Except.ok.injEq, eq_comm] at hparse

theorem FieldType.NamedBy.unique {text : String} {t t' : FieldType} (h : t.NamedBy text)
    (h' : t'.NamedBy text) : t = t' := by
  have hread := ofOperand_eq_ok.mpr h
  rwa [ofOperand_eq_ok.mpr h', Except.ok.injEq, eq_comm] at hread

end Backref
