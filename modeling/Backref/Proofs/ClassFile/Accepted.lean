import Backref.Proofs.ClassFile.Delimited
import Backref.Proofs.ClassFile.Frame

/-!
# What a class file consists of

Whatever a reader of class files accepts is the written form of a frame. Each
attribute of the frame is what has been passed over or looked at in its place,
so nothing of the bytes up to the end of the class file is lost.

Main results:

* `Code.exists_body` — the body of a code attribute, up to its last byte;
* `ClassFrame.exists_of_read` — the bytes that are passed as a class file;
* `ClassFile.ofBytes_eq_ok` — the byte strings that are read as a class file.
-/

namespace Backref

open Reader Cursor

-- ---------------------------------------------------------------------------
-- Counts and lengths
-- ---------------------------------------------------------------------------

/-- Bytes that have been read behind their length are measured bytes. -/
theorem passes_measured {n : UInt32} {c m d : Cursor} {body : Bytes}
    (hn : c.Passes (FixedWidth.encode n) m) (hlength : body.length = n.toNat)
    (hbody : m.Passes body d) : body.length < UInt32.size ∧ c.Passes (measured body) d := by
  refine ⟨hlength ▸ n.toNat_lt, ?_⟩
  rw [measured, hlength, UInt32.ofNat_toNat]
  exact passes_append.mpr ⟨m, hn, hbody⟩

section Entries

variable {α β : Type} {bytes : β → Bytes}

/-- Entries that have been read behind their number are counted entries. -/
theorem passes_counted {n : UInt16} {c m d : Cursor} {bs : List β}
    (hn : c.Passes (FixedWidth.encode n) m) (hlength : bs.length = n.toNat)
    (hentries : m.Passes (bs.flatMap bytes) d) :
    bs.length ≤ countLimit ∧ c.Passes (counted bytes bs) d := by
  have hlt := n.toNat_lt
  refine ⟨by rw [hlength, countLimit]; omega, ?_⟩
  rw [counted, hlength, UInt16.ofNat_toNat]
  exact passes_append.mpr ⟨m, hn, hentries⟩

variable {entry : Reader α} {Fits : β → Prop} {V : β → α → Prop}
  (hentry : ∀ {c d a}, entry c = .ok a d → ∃ b, Fits b ∧ V b a ∧ c.Passes (bytes b) d)
include hentry

/-- Entries that have been read stand for entries that fit, in the same order. -/
theorem exists_of_timesOnto {n : Nat} {seen as : Array α} {c d : Cursor}
    (h : timesOnto entry n seen c = .ok as d) :
    ∃ (bs : List β) (more : List α), bs.length = n ∧ (∀ b ∈ bs, Fits b) ∧
      List.Forall₂ V bs more ∧ as = seen ++ more ∧ c.Passes (bs.flatMap bytes) d := by
  -- the induction is on the entries still to be read, for any that have been read
  induction n generalizing seen c with
  | zero =>
    obtain ⟨rfl, rfl⟩ := pure_eq_ok.mp h
    exact ⟨[], [], rfl, by simp, .nil, by simp, passes_nil.mpr rfl⟩
  | succ n ih =>
    obtain ⟨a, m, hfirst, hrest⟩ := bind_eq_ok.mp h
    obtain ⟨b, hfits, hb, hpasses⟩ := hentry hfirst
    obtain ⟨bs, more, hlength, hall, hbs, rfl, hothers⟩ := ih hrest
    exact ⟨b :: bs, a :: more, by rw [List.length_cons, hlength],
      List.forall_mem_cons.mpr ⟨hfits, hall⟩, .cons hb hbs, by simp,
      passes_append.mpr ⟨m, hpasses, hothers⟩⟩

/-- The entries of a table, counted. -/
theorem exists_of_table {as : Array α} {c d : Cursor} (h : table entry c = .ok as d) :
    ∃ bs, AllFit Fits bs ∧ List.Forall₂ V bs as.toList ∧ c.Passes (counted bytes bs) d := by
  obtain ⟨n, m, hn, htimes⟩ := bind_eq_ok.mp h
  obtain ⟨bs, more, hlength, hfits, hbs, rfl, hentries⟩ := exists_of_timesOnto hentry htimes
  obtain ⟨hcount, hpasses⟩ := passes_counted (int_eq_ok.mp hn) hlength hentries
  exact ⟨bs, ⟨hcount, hfits⟩, by simpa using hbs, hpasses⟩

end Entries

/-- The entries of a table that are written as what is read of them. -/
theorem fit_of_table {α : Type} {bytes : α → Bytes} {entry : Reader α} {Fits : α → Prop}
    (hentry : ∀ {c d a}, entry c = .ok a d → Fits a ∧ c.Passes (bytes a) d) {as : Array α}
    {c d : Cursor} (h : table entry c = .ok as d) :
    AllFit Fits as.toList ∧ c.Passes (counted bytes as.toList) d := by
  have hself : ∀ {c d a}, entry c = .ok a d → ∃ b, Fits b ∧ b = a ∧ c.Passes (bytes b) d :=
    fun ha => ⟨_, (hentry ha).1, rfl, (hentry ha).2⟩
  obtain ⟨bs, hfits, hbs, hpasses⟩ := exists_of_table hself h
  obtain rfl : bs = as.toList := by rwa [List.forall₂_eq_eq_eq] at hbs
  exact ⟨hfits, hpasses⟩

/-- A table of integers. -/
theorem size_le_of_table {α : Type} [FixedWidth α] {as : Array α} {c d : Cursor}
    (h : table (int α) c = .ok as d) :
    as.size ≤ countLimit ∧ c.Passes (counted FixedWidth.encode as.toList) d := by
  rw [counted, Array.length_toList]
  exact (table_eq_ok int_eq_ok).mp h

/-- Where nothing is left, all of a byte string has been passed. -/
theorem eq_of_passes {data bs : Bytes} {d : Cursor} (h : (ofBytes data).Passes bs d)
    (hend : d.ahead = []) : bs = data := by
  have hdata : data = bs ++ d.ahead := h.ahead
  rw [hdata, hend, List.append_nil]

/-- A reader that asks at the end whether there is more has found nothing. -/
theorem ahead_of_hasMore {α : Type} {cause : Malformation} {a b : α} {c d : Cursor}
    (h : (do if ← hasMore then malformed cause else return a : Reader α) c = .ok b d) :
    a = b ∧ c = d ∧ c.ahead = [] := by
  obtain ⟨more, m, hmore, h⟩ := bind_eq_ok.mp h
  obtain ⟨hahead, rfl⟩ := hasMore_eq_ok.mp hmore
  cases more with
  | true => exact absurd h malformed_ne_ok
  | false =>
    obtain ⟨rfl, rfl⟩ := pure_eq_ok.mp h
    exact ⟨rfl, rfl, by simpa using hahead⟩

-- ---------------------------------------------------------------------------
-- Attributes
-- ---------------------------------------------------------------------------

namespace Attribute

variable {c d : Cursor}

theorem exists_of_skip {u : Unit} (h : Code.skipAttribute c = .ok u d) :
    ∃ a : Attribute, a.Fits ∧ c.Passes a.bytes d := by
  obtain ⟨_, m, hskip, h⟩ := bind_eq_ok.mp h
  obtain ⟨n, m', hn, hbody⟩ := bind_eq_ok.mp h
  obtain ⟨name, hname, hpasses⟩ := skip_eq_ok.mp hskip
  obtain ⟨body, hlength, hbody⟩ := skip_eq_ok.mp hbody
  obtain ⟨hfits, hmeasured⟩ := passes_measured (int_eq_ok.mp hn) hlength hbody
  refine ⟨⟨FixedWidth.decode name, body⟩, hfits, passes_append.mpr ⟨m, ?_, hmeasured⟩⟩
  rwa [FixedWidth.encode_decode name hname]

/-- A table of attributes that is skipped is there. -/
theorem exists_of_skipAttributes {u : Unit} (h : Code.skipAttributes c = .ok u d) :
    ∃ as, AllFit Fits as ∧ c.Passes (counted bytes as) d := by
  obtain ⟨n, m, hn, hrepeat⟩ := bind_eq_ok.mp h
  -- the count has been read; what is left is one skip after another
  have hall : ∀ n m, Code.repeatRead Code.skipAttribute n m = .ok u d →
      ∃ as : List Attribute, as.length = n ∧ (∀ a ∈ as, a.Fits) ∧
        m.Passes (as.flatMap bytes) d := by
    intro n
    induction n with
    | zero =>
      intro m h
      obtain ⟨-, rfl⟩ := pure_eq_ok.mp h
      exact ⟨[], rfl, by simp, passes_nil.mpr rfl⟩
    | succ n ih =>
      intro m h
      obtain ⟨_, m', hfirst, hrest⟩ := bind_eq_ok.mp h
      obtain ⟨a, hfits, hpasses⟩ := exists_of_skip hfirst
      obtain ⟨as, hlength, hall, hothers⟩ := ih m' hrest
      exact ⟨a :: as, by rw [List.length_cons, hlength], List.forall_mem_cons.mpr ⟨hfits, hall⟩,
        passes_append.mpr ⟨m', hpasses, hothers⟩⟩
  obtain ⟨as, hlength, hfits, hentries⟩ := hall _ _ hrepeat
  obtain ⟨hcount, hpasses⟩ := passes_counted (int_eq_ok.mp hn) hlength hentries
  exact ⟨as, ⟨hcount, hfits⟩, hpasses⟩

/-- An attribute that is read has its name in the pool. -/
theorem exists_of_read {pool : ConstantPool} {name : String} {body : Bytes}
    (h : ClassFile.readAttribute pool c = .ok (name, body) d) :
    ∃ index, pool.NamesText index name ∧ (Attribute.mk index body).Fits ∧
      c.Passes (Attribute.mk index body).bytes d := by
  obtain ⟨index, m, hindex, h⟩ := bind_eq_ok.mp h
  obtain ⟨n, m', hn, h⟩ := bind_eq_ok.mp h
  obtain ⟨body', m'', htake, h⟩ := bind_eq_ok.mp h
  obtain ⟨hlength, hbody⟩ := take_eq_ok.mp htake
  cases hutf8 : pool.utf8 index with
  | error fault =>
    rw [hutf8] at h
    exact absurd h throw_ne_ok
  | ok text =>
    rw [hutf8] at h
    obtain ⟨hpair, rfl⟩ := pure_eq_ok.mp h
    obtain ⟨rfl, rfl⟩ := Prod.mk.inj hpair
    obtain ⟨hfits, hmeasured⟩ := passes_measured (int_eq_ok.mp hn) hlength hbody
    exact ⟨index, ConstantPool.utf8_eq_ok.mp hutf8, hfits,
      passes_append.mpr ⟨m, int_eq_ok.mp hindex, hmeasured⟩⟩

end Attribute

/-- A body is read on its own: the bytes around it do not move. -/
theorem readBody_eq_ok {α : Type} {r : Reader α} {body : Bytes} {a : α} {c d : Cursor} :
    ClassFile.readBody r body c = .ok a d ↔ r.run body = .ok a ∧ c = d := by
  unfold ClassFile.readBody
  cases r.run body with
  | ok b => simp [pure_eq_ok]
  | error fault => simp [throw_ne_ok]

namespace Code

theorem passes_handler {h : ExceptionHandler} {c d : Cursor} (hread : readHandler c = .ok h d) :
    c.Passes h.bytes d := by
  obtain ⟨start, m, hstart, hread⟩ := bind_eq_ok.mp hread
  obtain ⟨stop, m', hstop, hread⟩ := bind_eq_ok.mp hread
  obtain ⟨handler, m'', hhandler, hread⟩ := bind_eq_ok.mp hread
  obtain ⟨catchType, m''', hcatch, hread⟩ := bind_eq_ok.mp hread
  obtain ⟨rfl, rfl⟩ := pure_eq_ok.mp hread
  refine passes_append.mpr ⟨m, int_eq_ok.mp hstart, ?_⟩
  refine passes_append.mpr ⟨m', int_eq_ok.mp hstop, ?_⟩
  exact passes_append.mpr ⟨m'', int_eq_ok.mp hhandler, int_eq_ok.mp hcatch⟩

/-- The body of a code attribute, up to its last byte. -/
theorem exists_body {c : Code} {body : Bytes} (h : Code.read.run body = .ok c) :
    ∃ attributes, c.bytes ≠ [] ∧ c.handlers.size ≤ countLimit ∧
      AllFit Attribute.Fits attributes ∧ c.body attributes = body := by
  obtain ⟨d, h⟩ := run_eq_ok.mp h
  obtain ⟨maxStack, m₁, hstack, h⟩ := bind_eq_ok.mp h
  obtain ⟨maxLocals, m₂, hlocals, h⟩ := bind_eq_ok.mp h
  obtain ⟨n, m₃, hn, h⟩ := bind_eq_ok.mp h
  split at h
  · exact absurd h malformed_ne_ok
  -- code is never empty: a length of zero is malformed
  rename_i hpositive
  obtain ⟨bytes, m₄, htake, h⟩ := bind_eq_ok.mp h
  obtain ⟨handlers, m₅, hhandlers, h⟩ := bind_eq_ok.mp h
  obtain ⟨_, m₆, hskip, h⟩ := bind_eq_ok.mp h
  obtain ⟨rfl, rfl, hend⟩ := ahead_of_hasMore h
  obtain ⟨hlength, htake⟩ := take_eq_ok.mp htake
  obtain ⟨-, hbytes⟩ := passes_measured (int_eq_ok.mp hn) hlength htake
  obtain ⟨hcount, hhandlers⟩ := fit_of_table (fun h => ⟨trivial, passes_handler h⟩) hhandlers
  obtain ⟨attributes, hfits, hattributes⟩ := Attribute.exists_of_skipAttributes hskip
  -- nothing lies ahead of the body, so its parts are all there is
  refine ⟨attributes, ?_, hcount.1, hfits, eq_of_passes ?_ hend⟩
  · rintro (rfl : bytes = [])
    exact hpositive (UInt32.toNat_inj.mp hlength.symm)
  · refine passes_append.mpr ⟨m₁, int_eq_ok.mp hstack, ?_⟩
    refine passes_append.mpr ⟨m₂, int_eq_ok.mp hlocals, ?_⟩
    exact passes_append.mpr ⟨m₄, hbytes, passes_append.mpr ⟨m₅, hhandlers, hattributes⟩⟩

end Code

namespace BootstrapMethod

theorem Fits.of_read {b : BootstrapMethod} {c d : Cursor}
    (h : ClassFile.readBootstrapMethod c = .ok b d) : b.Fits ∧ c.Passes b.bytes d := by
  obtain ⟨handle, m, hhandle, h⟩ := bind_eq_ok.mp h
  obtain ⟨arguments, m', harguments, h⟩ := bind_eq_ok.mp h
  obtain ⟨rfl, rfl⟩ := pure_eq_ok.mp h
  obtain ⟨hsize, hpasses⟩ := size_le_of_table harguments
  exact ⟨hsize, passes_append.mpr ⟨m, int_eq_ok.mp hhandle, hpasses⟩⟩

/-- A table of bootstrap methods, up to its last byte. -/
theorem eq_of_run {methods : Array BootstrapMethod} {body : Bytes}
    (h : ClassFile.readBootstrapMethods.run body = .ok methods) :
    AllFit Fits methods.toList ∧ counted bytes methods.toList = body := by
  obtain ⟨d, h⟩ := run_eq_ok.mp h
  obtain ⟨methods', m, htable, h⟩ := bind_eq_ok.mp h
  obtain ⟨rfl, rfl, hend⟩ := ahead_of_hasMore h
  obtain ⟨hfits, hpasses⟩ := fit_of_table Fits.of_read htable
  exact ⟨hfits, eq_of_passes hpasses hend⟩

end BootstrapMethod

-- ---------------------------------------------------------------------------
-- Members
-- ---------------------------------------------------------------------------

theorem ClassFile.readAccess_eq_ok {a : AccessFlags} {c d : Cursor} :
    readAccess c = .ok a d ↔ c.Passes (FixedWidth.encode a.bits) d := by
  constructor
  · intro h
    obtain ⟨bits, m, hbits, h⟩ := bind_eq_ok.mp h
    obtain ⟨rfl, rfl⟩ := pure_eq_ok.mp h
    exact int_eq_ok.mp hbits
  · exact fun h => reads_access a c d h

/-- A field that has been read has a frame. -/
theorem FieldFrame.exists_of_read {f : Field} {c d : Cursor}
    (h : ClassFile.readField c = .ok f d) :
    ∃ x : FieldFrame, x.Fits ∧ x.field = f ∧ c.Passes x.bytes d := by
  obtain ⟨access, m₁, haccess, h⟩ := bind_eq_ok.mp h
  obtain ⟨name, m₂, hname, h⟩ := bind_eq_ok.mp h
  obtain ⟨descriptor, m₃, hdescriptor, h⟩ := bind_eq_ok.mp h
  obtain ⟨_, m₄, hskip, h⟩ := bind_eq_ok.mp h
  obtain ⟨rfl, rfl⟩ := pure_eq_ok.mp h
  obtain ⟨attributes, hfits, hattributes⟩ := Attribute.exists_of_skipAttributes hskip
  refine ⟨⟨⟨access, name, descriptor⟩, attributes⟩, hfits, rfl, ?_⟩
  refine passes_append.mpr ⟨m₁, ClassFile.readAccess_eq_ok.mp haccess, ?_⟩
  refine passes_append.mpr ⟨m₂, int_eq_ok.mp hname, ?_⟩
  exact passes_append.mpr ⟨m₃, int_eq_ok.mp hdescriptor, hattributes⟩

/-- The attributes of a method that has been read hold the code it was read
with, and no other. -/
theorem MethodAttribute.exists_of_reads {pool : ConstantPool} {n : Nat}
    {before after : Option Code} {c d : Cursor}
    (h : ClassFile.readMethodAttributes pool n before c = .ok after d) :
    ∃ as : List MethodAttribute, as.length = n ∧ (∀ a ∈ as, a.Fits) ∧ (∀ a ∈ as, a.Named pool) ∧
      before.toList ++ as.filterMap code? = after.toList ∧ c.Passes (as.flatMap bytes) d := by
  -- the induction is on the attributes still to be read, for any code found before them
  induction n generalizing before c with
  | zero =>
    obtain ⟨rfl, rfl⟩ := pure_eq_ok.mp h
    exact ⟨[], rfl, by simp, by simp, List.append_nil _, passes_nil.mpr rfl⟩
  | succ n ih =>
    obtain ⟨⟨text, body⟩, m, hfirst, hothers⟩ := bind_eq_ok.mp h
    obtain ⟨index, htext, hshort, hpasses⟩ := Attribute.exists_of_read hfirst
    dsimp only at hothers
    split at hothers
    · rename_i hcode
      split at hothers
      · exact absurd hothers malformed_ne_ok
      rename_i hnone
      -- a second code attribute is malformed, so this is the first
      obtain rfl : before = none := by simpa using hnone
      obtain ⟨code, m', hbody, hlater⟩ := bind_eq_ok.mp hothers
      obtain ⟨hrun, rfl⟩ := readBody_eq_ok.mp hbody
      obtain ⟨attributes, hbytes, hhandlers, hfits, rfl⟩ := Code.exists_body hrun
      obtain ⟨as, hlength, hall, hnamed, hafter, hrest⟩ := ih hlater
      subst hcode
      exact ⟨.code index code attributes :: as, by rw [List.length_cons, hlength],
        List.forall_mem_cons.mpr ⟨⟨hshort, hhandlers, hfits⟩, hall⟩,
        List.forall_mem_cons.mpr ⟨⟨htext, hbytes⟩, hnamed⟩, hafter,
        passes_append.mpr ⟨m, hpasses, hrest⟩⟩
    · rename_i hother
      obtain ⟨as, hlength, hall, hnamed, hafter, hrest⟩ := ih hothers
      exact ⟨.foreign ⟨index, body⟩ :: as, by rw [List.length_cons, hlength],
        List.forall_mem_cons.mpr ⟨⟨hshort, trivial⟩, hall⟩,
        List.forall_mem_cons.mpr ⟨⟨text, htext, hother⟩, hnamed⟩, hafter,
        passes_append.mpr ⟨m, hpasses, hrest⟩⟩

/-- A method that has been read has a frame. -/
theorem MethodFrame.exists_of_read {pool : ConstantPool} {method : Method} {c d : Cursor}
    (h : ClassFile.readMethod pool c = .ok method d) :
    ∃ x : MethodFrame, x.Fits ∧ x.Holds pool method ∧ c.Passes x.bytes d := by
  obtain ⟨access, m₁, haccess, h⟩ := bind_eq_ok.mp h
  obtain ⟨name, m₂, hname, h⟩ := bind_eq_ok.mp h
  obtain ⟨descriptor, m₃, hdescriptor, h⟩ := bind_eq_ok.mp h
  obtain ⟨n, m₄, hn, h⟩ := bind_eq_ok.mp h
  obtain ⟨code, m₅, hattributes, h⟩ := bind_eq_ok.mp h
  obtain ⟨rfl, rfl⟩ := pure_eq_ok.mp h
  obtain ⟨as, hlength, hall, hnamed, hcode, hentries⟩ := MethodAttribute.exists_of_reads hattributes
  obtain ⟨hcount, hpasses⟩ := passes_counted (int_eq_ok.mp hn) hlength hentries
  refine ⟨⟨access, name, descriptor, as⟩, ⟨hcount, hall⟩, ⟨rfl, rfl, rfl, hnamed, hcode⟩, ?_⟩
  refine passes_append.mpr ⟨m₁, ClassFile.readAccess_eq_ok.mp haccess, ?_⟩
  refine passes_append.mpr ⟨m₂, int_eq_ok.mp hname, ?_⟩
  exact passes_append.mpr ⟨m₃, int_eq_ok.mp hdescriptor, hpasses⟩

-- ---------------------------------------------------------------------------
-- Classes
-- ---------------------------------------------------------------------------

/-- The attributes of a class that has been read hold its bootstrap methods; the
last table of them counts. -/
theorem ClassAttribute.exists_of_reads {pool : ConstantPool} {n : Nat}
    {before after : Array BootstrapMethod} {c d : Cursor}
    (h : ClassFile.readClassAttributes pool n before c = .ok after d) :
    ∃ as : List ClassAttribute, as.length = n ∧ (∀ a ∈ as, a.Fits) ∧ (∀ a ∈ as, a.Named pool) ∧
      (as.filterMap bootstrap?).getLastD before = after ∧ c.Passes (as.flatMap bytes) d := by
  -- the induction is on the attributes still to be read, for any table found before them
  induction n generalizing before c with
  | zero =>
    obtain ⟨rfl, rfl⟩ := pure_eq_ok.mp h
    exact ⟨[], rfl, by simp, by simp, rfl, passes_nil.mpr rfl⟩
  | succ n ih =>
    obtain ⟨⟨text, body⟩, m, hfirst, hothers⟩ := bind_eq_ok.mp h
    obtain ⟨index, htext, hshort, hpasses⟩ := Attribute.exists_of_read hfirst
    dsimp only at hothers
    split at hothers
    · rename_i hbootstrap
      obtain ⟨methods, m', hbody, hlater⟩ := bind_eq_ok.mp hothers
      obtain ⟨hrun, rfl⟩ := readBody_eq_ok.mp hbody
      obtain ⟨hfits, rfl⟩ := BootstrapMethod.eq_of_run hrun
      obtain ⟨as, hlength, hall, hnamed, hafter, hrest⟩ := ih hlater
      subst hbootstrap
      exact ⟨.bootstrap index methods :: as, by rw [List.length_cons, hlength],
        List.forall_mem_cons.mpr ⟨⟨hshort, hfits⟩, hall⟩,
        List.forall_mem_cons.mpr ⟨htext, hnamed⟩, (List.getLastD_cons ..).trans hafter,
        passes_append.mpr ⟨m, hpasses, hrest⟩⟩
    · rename_i hother
      obtain ⟨as, hlength, hall, hnamed, hafter, hrest⟩ := ih hothers
      exact ⟨.foreign ⟨index, body⟩ :: as, by rw [List.length_cons, hlength],
        List.forall_mem_cons.mpr ⟨⟨hshort, trivial⟩, hall⟩,
        List.forall_mem_cons.mpr ⟨⟨text, htext, hother⟩, hnamed⟩, hafter,
        passes_append.mpr ⟨m, hpasses, hrest⟩⟩

/-- What is passed as a class file is the written form of a frame that holds it. -/
theorem ClassFrame.exists_of_read {file : ClassFile} {c d : Cursor}
    (h : ClassFile.read c = .ok file d) :
    ∃ x : ClassFrame, x.Fits ∧ x.Holds file ∧ c.Passes x.bytes d := by
  obtain ⟨found, m₁, hfound, h⟩ := bind_eq_ok.mp h
  split at h
  · exact absurd h throw_ne_ok
  rename_i hmagic
  obtain rfl := not_not.mp hmagic
  obtain ⟨minor, m₂, hminor, h⟩ := bind_eq_ok.mp h
  obtain ⟨major, m₃, hmajor, h⟩ := bind_eq_ok.mp h
  obtain ⟨pool, m₄, hpool, h⟩ := bind_eq_ok.mp h
  obtain ⟨access, m₅, haccess, h⟩ := bind_eq_ok.mp h
  obtain ⟨thisClass, m₆, hthis, h⟩ := bind_eq_ok.mp h
  obtain ⟨superClass, m₇, hsuper, h⟩ := bind_eq_ok.mp h
  obtain ⟨interfaces, m₈, hinterfaces, h⟩ := bind_eq_ok.mp h
  obtain ⟨fields, m₉, hfields, h⟩ := bind_eq_ok.mp h
  obtain ⟨methods, m₁₀, hmethods, h⟩ := bind_eq_ok.mp h
  obtain ⟨n, m₁₁, hn, h⟩ := bind_eq_ok.mp h
  obtain ⟨bootstrapMethods, m₁₂, hattributes, h⟩ := bind_eq_ok.mp h
  obtain ⟨rfl, rfl⟩ := pure_eq_ok.mp h
  -- what has been passed as each of the parts
  obtain ⟨poolBytes, hpassed, hpool⟩ := ConstantPool.selfDelimiting_read.reads hpool
  obtain ⟨hsize, hinterfaces⟩ := size_le_of_table hinterfaces
  obtain ⟨ys, hfieldsFit, hys, hfields⟩ := exists_of_table FieldFrame.exists_of_read hfields
  obtain ⟨zs, hmethodsFit, hzs, hmethods⟩ := exists_of_table MethodFrame.exists_of_read hmethods
  obtain ⟨as, hlength, hall, hnamed, hlast, hentries⟩ := ClassAttribute.exists_of_reads hattributes
  obtain ⟨hcount, hpasses⟩ := passes_counted (int_eq_ok.mp hn) hlength hentries
  -- the frame is the parts in the order in which they have been passed
  refine ⟨⟨minor, major, poolBytes, access, thisClass, superClass, interfaces, ys, zs, as⟩,
    ⟨hsize, hfieldsFit, hmethodsFit, hcount, hall⟩,
    ⟨rfl, rfl, hpool, rfl, rfl, rfl, rfl, hys, hzs, hnamed, hlast⟩, ?_⟩
  refine passes_append.mpr ⟨m₁, int_eq_ok.mp hfound, ?_⟩
  refine passes_append.mpr ⟨m₂, int_eq_ok.mp hminor, ?_⟩
  refine passes_append.mpr ⟨m₃, int_eq_ok.mp hmajor, passes_append.mpr ⟨m₄, hpassed, ?_⟩⟩
  refine passes_append.mpr ⟨m₅, ClassFile.readAccess_eq_ok.mp haccess, ?_⟩
  refine passes_append.mpr ⟨m₆, int_eq_ok.mp hthis, ?_⟩
  refine passes_append.mpr ⟨m₇, int_eq_ok.mp hsuper, passes_append.mpr ⟨m₈, hinterfaces, ?_⟩⟩
  exact passes_append.mpr ⟨m₉, hfields, passes_append.mpr ⟨m₁₀, hmethods, hpasses⟩⟩

/-- The byte strings that are read as a class file: it stands at their start,
with all of its attributes. -/
theorem ClassFile.ofBytes_eq_ok {data : Bytes} {c : ClassFile} :
    ofBytes data = .ok c ↔ ∃ (x : ClassFrame) (rest : Bytes), x.Fits ∧ x.Holds c ∧
      data = x.bytes ++ rest := by
  constructor
  · intro h
    obtain ⟨d, hread⟩ := run_eq_ok.mp h
    obtain ⟨x, hfits, hholds, hpasses⟩ := ClassFrame.exists_of_read hread
    exact ⟨x, d.ahead, hfits, hholds, hpasses.ahead⟩
  · rintro ⟨x, rest, hfits, hholds, rfl⟩
    obtain ⟨d, hpasses, -⟩ := exists_passes (c := Cursor.ofBytes (x.bytes ++ rest)) rfl
    exact run_eq_ok.mpr ⟨d, hholds.reads hfits _ d hpasses⟩

end Backref
