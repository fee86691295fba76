import Backref.Proofs.Discovery.Invariants
import Backref.Proofs.Symbol.Language

/-!
# Element classes

A class is reported for a type that a member spells, and it is the element
class of this type, whatever its number of array layers. So an array type is
reported as its element class, or not at all. Names are taken from descriptors
as they are written there; a class whose name looks like an array type is
reported only where a descriptor has this very name. Besides, the owner of a
constructor is reported together with it.

Main results:

* `ClassFile.Spells.named` — the names of element classes;
* `Findings.explained` — why a search has noted a class;
* `Findings.elements_of_array_types` — the class keys that a byte string reports.
-/

namespace Backref

open Discovery

-- ---------------------------------------------------------------------------
-- Names in descriptors
-- ---------------------------------------------------------------------------

section Names

variable {t : FieldType} {name : String}

/-- The class of a type is that of its element. -/
theorem FieldType.className?_eq_some : t.className? = some name ↔ t.element = .object name := by
  unfold className?
  cases t.element with
  | primitive p => simp
  | object n => simp

/-- Behind its array layers, a type is spelled by its class. -/
theorem FieldType.suffix_render (h : t.className? = some name) :
    (ElementType.object name).render <:+ t.render := by
  unfold FieldType.render
  rw [className?_eq_some.mp h]
  exact List.suffix_append _ _

/-- A well-formed type names a class by some text. -/
theorem FieldType.WellFormed.name_ne_empty (ht : t.WellFormed) (h : t.className? = some name) :
    name ≠ "" := by
  have helement := ht.2
  rw [FieldType.className?_eq_some.mp h] at helement
  exact helement.1

/-- A type of a method that mentions a class is one that a field can have. -/
theorem MethodType.WellFormed.of_mem {types : MethodType} (hwf : types.WellFormed)
    (ht : t ∈ types.types) (h : t.className? = some name) : t.WellFormed := by
  rcases List.mem_append.mp ht with hparameter | hresult
  · exact hwf.1 t hparameter
  · obtain rfl := List.mem_singleton.mp hresult
    rcases hwf.2 with hfield | hvoid
    · exact hfield
    · rw [hvoid] at h
      cases h

/-- A descriptor of a method spells its types one after the other. -/
theorem MethodType.infix_render {types : MethodType} (ht : t ∈ types.types) :
    t.render <:+: types.render := by
  unfold render
  rcases List.mem_append.mp ht with hparameter | hresult
  · obtain ⟨before, after, hsplit⟩ := List.append_of_mem hparameter
    rw [hsplit, List.flatMap_append, List.flatMap_cons]
    exact ⟨'(' :: before.flatMap FieldType.render,
      after.flatMap FieldType.render ++ ')' :: types.result.render, by simp⟩
  · obtain rfl := List.mem_singleton.mp hresult
    exact ⟨'(' :: types.parameters.flatMap FieldType.render ++ [')'], [], by simp⟩

end Names

namespace ClassFile.Spells

variable {lambdas : Bool} {c : ClassFile} {user : Symbol} {text name : String} {t : FieldType}

/-- A class that a member spells has a name. The name begins like an array type
only if it stands so in a descriptor. -/
theorem named (h : c.Spells lambdas user text t) (hname : t.className? = some name) :
    name ≠ "" ∧
      (name.toList.head? = some '[' → (ElementType.object name).render <:+: text.toList) := by
  have hsuffix := FieldType.suffix_render hname
  -- a class is named where a type is spelled out
  have hfield : t.SpelledBy text →
      name ≠ "" ∧
        (name.toList.head? = some '[' → (ElementType.object name).render <:+: text.toList) := by
    rintro ⟨hwf, hrender⟩
    exact ⟨hwf.name_ne_empty hname, fun _ => hrender ▸ hsuffix.isInfix⟩
  -- the types of a method descriptor lie within it
  have hmethod : ∀ types : MethodType, types.SpelledBy text → t ∈ types.types →
      name ≠ "" ∧
        (name.toList.head? = some '[' → (ElementType.object name).render <:+: text.toList) := by
    rintro types ⟨hwf, hrender⟩ ht
    have hinfix := hsuffix.isInfix.trans (MethodType.infix_render ht)
    exact ⟨(hwf.of_mem ht hname).name_ne_empty hname, fun _ => hrender ▸ hinfix⟩
  cases h with
  | field howner hf hm ht => exact hfield ht
  | method howner hf hm htypes ht => exact hmethod _ htypes ht
  | lambda hlambdas hi hop hindex hl hd htypes ht => exact hmethod _ htypes ht
  | operand hi hop hindex hnamed ht =>
    unfold FieldType.NamedBy at ht
    by_cases harray : text.toList.head? = some '['
    · rw [if_pos harray] at ht
      exact hfield ht
    · -- a bare name is no array type, and it is the name of the class
      rw [if_neg harray] at ht
      obtain ⟨hne, rfl⟩ := ht
      obtain rfl := Option.some.inj hname
      exact ⟨hne, fun h => absurd h harray⟩

end ClassFile.Spells

-- ---------------------------------------------------------------------------
-- What a search finds
-- ---------------------------------------------------------------------------

/-- Each class that has been noted is the owner of a constructor that the same
user refers to, or the element class of a type that the user spells. -/
def Explained (lambdas : Bool) (c : ClassFile) (found : Array Reference) : Prop :=
  ∀ name user, ⟨.ofClass name, user⟩ ∈ found →
    (∃ d, ⟨.method ⟨name, Symbol.constructorName, d⟩, user⟩ ∈ found) ∨
      ∃ text t, c.Spells lambdas user text t ∧ t.className? = some name

namespace Explained

variable {lambdas : Bool} {c : ClassFile} {found : Array Reference}

/-- One more reference, to a class only if there is an explanation for it. -/
theorem push (h : Explained lambdas c found) {r : Reference}
    (hr : ∀ name, r.target = .ofClass name →
      (∃ d, ⟨.method ⟨name, Symbol.constructorName, d⟩, r.user⟩ ∈ found) ∨
        ∃ text t, c.Spells lambdas r.user text t ∧ t.className? = some name) :
    Explained lambdas c (found.push r) := by
  intro name user hmem
  have hexplained : (∃ d, ⟨.method ⟨name, Symbol.constructorName, d⟩, user⟩ ∈ found) ∨
      ∃ text t, c.Spells lambdas user text t ∧ t.className? = some name := by
    rcases Array.mem_push.mp hmem with hold | hnew
    · exact h name user hold
    · subst hnew
      exact hr name rfl
  rcases hexplained with ⟨d, hd⟩ | hspells
  · exact .inl ⟨d, Array.mem_push.mpr (.inl hd)⟩
  · exact .inr hspells

/-- A reference to a member needs no explanation. -/
theorem push_member (h : Explained lambdas c found) {r : Reference}
    (hr : ∀ name, r.target ≠ .ofClass name) : Explained lambdas c (found.push r) :=
  h.push fun name hname => absurd hname (hr name)

end Explained

/-- The notes of a search explain the classes that they add. -/
theorem lastingIn_explained (lambdas : Bool) (c : ClassFile) :
    LastingIn lambdas c (Explained lambdas c) where
  ofClass user text t name hspells hname found h := by
    refine h.push fun n hn => .inr ⟨text, t, hspells, ?_⟩
    rw [hname, Symbol.ofClass.inj hn]
  field user m found h := h.push_member fun name => nofun
  method user m found h := by
    have hmethod : Explained lambdas c (found.push ⟨.method m, user⟩) :=
      h.push_member fun name => nofun
    unfold noteMethod
    by_cases hm : (Symbol.method m).isConstructor = true
    · simp only [hm, if_true]
      -- the constructor is there when its class is noted
      refine hmethod.push fun name hname => .inl ⟨m.descriptor, Array.mem_push.mpr (.inr ?_)⟩
      obtain rfl := Symbol.ofClass.inj hname
      simp only [Symbol.isConstructor, beq_iff_eq] at hm
      rw [← hm]
    · rw [Bool.not_eq_true] at hm
      simp only [hm]
      exact hmethod

namespace Findings

/-- What a byte string reports, up to its end or a fault, is explained by the class in it. -/
theorem explained {lambdas : Bool} {bytes : Bytes} {c : ClassFile}
    (hc : ClassFile.ofBytes bytes = .ok c) :
    Explained lambdas c (ofBytes lambdas bytes).references := by
  refine of_lastingIn (fun name user h => by simp at h) fun c' hc' => ?_
  obtain rfl := Except.ok.inj (hc.symm.trans hc')
  exact lastingIn_explained lambdas c

end Findings

-- ---------------------------------------------------------------------------
-- Class keys
-- ---------------------------------------------------------------------------

/-- A usage that stands for a class belongs to that class. -/
theorem Symbol.eq_of_usage_eq_ofClass {s : Symbol} {name : String}
    (h : s.usage = (ofClass name).usage) : s = ofClass name := by
  obtain ⟨htag, hkey⟩ := usage_eq_iff.mp h
  cases s with
  | ofClass n => exact congrArg ofClass hkey
  | field m => simp [tagLetter] at htag
  | method m => simp [tagLetter] at htag

namespace Findings

/-- A byte string reports a class with a user, up to its end or a fault, only if
it reports a constructor of the class with the same user, or if the user is a
member of the class file that spells a type whose element class it is. In the
second case the class has a name, which begins like an array type only if a
descriptor has it so between the letter and the semicolon. -/
theorem elements_of_array_types (lambdas : Bool) (bytes : Bytes) (name user : String)
    (h : ("s:" ++ name, user) ∈ (ofBytes lambdas bytes).reports) :
    (∃ d, ("m:" ++ name ++ ":<init>:" ++ d, user) ∈ (ofBytes lambdas bytes).reports) ∨
      name ≠ "" ∧ ∃ c member text t, ClassFile.ofBytes bytes = .ok c ∧ member.usage = user ∧
        c.Spells lambdas member text t ∧ t.className? = some name ∧
        (name.toList.head? = some '[' →
          'L' :: name.toList ++ [';'] <:+: text.toList) := by
  obtain ⟨⟨target, member⟩, hr, hreport⟩ := List.mem_map.mp h
  obtain ⟨hkey, rfl⟩ := Prod.mk.inj hreport
  obtain rfl : target = .ofClass name := Symbol.eq_of_usage_eq_ofClass hkey
  have hr := Array.mem_toList_iff.mp hr
  cases hc : ClassFile.ofBytes bytes with
  | error fault =>
    -- what is no class file reports nothing
    rw [ofBytes, hc] at hr
    simp at hr
  | ok c =>
    rcases explained hc name member hr with ⟨d, hd⟩ | ⟨text, t, hspells, hname⟩
    · refine .inl ⟨d, List.mem_map.mpr ⟨_, Array.mem_toList_iff.mpr hd, ?_⟩⟩
      rw [Symbol.usage_method]
      simp [Symbol.constructorName, String.append_assoc]
    · obtain ⟨hne, hspelled⟩ := hspells.named hname
      exact .inr ⟨hne, c, member, text, t, rfl, rfl, hspells, hname, hspelled⟩

/-- A class file: the class `C` with a field `f` of type `B[]`, and a field `g`
whose descriptor is that of an object, of a class that is called `[A`. -/
def bracketBytes : Bytes :=
  [0xCA, 0xFE, 0xBA, 0xBE, 0, 0, 0, 52, 0, 7, 1, 0, 1, 67, 7, 0, 1, 1, 0, 1, 102, 1, 0, 4, 91,
    76, 66, 59, 1, 0, 1, 103, 1, 0, 4, 76, 91, 65, 59, 0, 33, 0, 2, 0, 0, 0, 0, 0, 2, 0, 0, 0, 3,
    0, 4, 0, 0, 0, 0, 0, 5, 0, 6, 0, 0, 0, 0, 0, 0]

/-- The fields are reported as they spell their classes. -/
theorem elements_of_bracketBytes :
    (ofBytes true bracketBytes).reports = [("s:B", "f:C:f:[LB;"), ("s:[A", "f:C:g:L[A;")] ∧
      ∃ c member text t, ClassFile.ofBytes bracketBytes = .ok c ∧ member.usage = "f:C:f:[LB;" ∧
        c.Spells true member text t ∧ t.className? = some "B" := by
  have hreports : (ofBytes true bracketBytes).reports =
      [("s:B", "f:C:f:[LB;"), ("s:[A", "f:C:g:L[A;")] := by decide +kernel
  refine ⟨hreports, ?_⟩
  rcases elements_of_array_types true bracketBytes "B" "f:C:f:[LB;" (by simp [hreports]) with
    ⟨d, hd⟩ | ⟨-, c, member, text, t, hc, huser, hspells, hname, -⟩
  · -- no method is reported
    have hkey : "m:B:<init>:" ++ d = "s:B" := by simpa [hreports] using hd
    have htag := congrArg String.toList hkey
    simp at htag
  · exact ⟨c, member, text, t, hc, huser, hspells, hname⟩

/-- So there are class keys that begin like an array type. -/
theorem bracket_of_bracketBytes :
    (ofBytes true bracketBytes).fault = none ∧
      ¬ ∀ name user, ("s:" ++ name, user) ∈ (ofBytes true bracketBytes).reports →
        name ≠ "" ∧ name.toList.head? ≠ some '[' := by
  refine ⟨by decide +kernel, fun h => ?_⟩
  have hreported : ("s:" ++ "[A", "f:C:g:L[A;") ∈ (ofBytes true bracketBytes).reports := by
    decide +kernel
  exact (h "[A" "f:C:g:L[A;" hreported).2 (by decide)

end Findings

end Backref
