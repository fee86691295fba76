import Backref.Proofs.Constant.Layout

/-!
# Reading written pools

The written form of a constant lays it out. So a pool that consists of constants
in order is read from their written forms in this order.

Main results:

* `Constant.laid_encode` — a constant is laid out as it is written;
* `ConstantPool.Filled.reads` — a pool is read as it was written.
-/

namespace Backref

open Reader

namespace Constant

/-- A text has a written form only if its bytes can be counted in 16 bits. -/
def Fits : Constant → Prop
  | utf8 text => (Modified.encode text).length ≤ countLimit
  | _ => True

instance : DecidablePred Fits
  | utf8 text => inferInstanceAs (Decidable ((Modified.encode text).length ≤ countLimit))
  | integer _ | float _ | long _ | double _ | classInfo _ | string _ | memberRef .. | nameAndType ..
  | methodHandle .. | methodType _ | dynamic .. | invokeDynamic .. | moduleInfo _
  | packageInfo _ => inferInstanceAs (Decidable True)

/-- The written form of a constant lays it out. -/
theorem laid_encode {k : Constant} (h : k.Fits) : Laid k k.encode := by
  have htag : ∀ parts, Laid k (k.kind.tag :: parts) →
      Laid k (FixedWidth.encode k.kind.tag ++ parts) := by
    intro parts hlaid
    rw [FixedWidth.encode_byte]
    exact hlaid
  refine htag _ ?_
  cases k with
  | utf8 text => exact .utf8 h (Modified.decode_encode text)
  | integer value => exact .integer value
  | float bits => exact .float bits
  | long value => exact .long value
  | double bits => exact .double bits
  | classInfo name => exact .classInfo name
  | string text => exact .string text
  | memberRef kind owner signature =>
    cases kind with
    | field => exact .fieldRef owner signature
    | method => exact .methodRef owner signature
    | interfaceMethod => exact .interfaceMethodRef owner signature
  | nameAndType name descriptor => exact .nameAndType name descriptor
  | methodHandle kind member => exact .methodHandle kind member
  | methodType descriptor => exact .methodType descriptor
  | dynamic bootstrap signature => exact .dynamic bootstrap signature
  | invokeDynamic bootstrap signature => exact .invokeDynamic bootstrap signature
  | moduleInfo name => exact .moduleInfo name
  | packageInfo name => exact .packageInfo name

end Constant

namespace ConstantPool

/-- A pool consists of constants in order, as many as 16-bit indices can reach. -/
structure Filled (pool : ConstantPool) (ks : List Constant) : Prop where
  slots : pool.slots.toList = none :: ks.flatMap Constant.filled
  size_le : pool.size ≤ countLimit
  fits : ∀ k ∈ ks, k.Fits

/-- A pool that is filled is written as its constants, in order. -/
theorem Filled.encodeConstants_eq {pool : ConstantPool} {ks : List Constant}
    (h : pool.Filled ks) : pool.encodeConstants = ks.flatMap Constant.encode := by
  rw [encodeConstants, h.slots, List.flatMap_cons, List.flatMap_assoc, List.nil_append]
  congr 1
  funext k
  unfold Constant.filled
  split <;> simp

/-- A pool is read as it was written. -/
theorem Filled.reads {pool : ConstantPool} {ks : List Constant} (h : pool.Filled ks) :
    Reads ConstantPool.read pool.encode pool := by
  intro c d hpasses
  have hcount : (UInt16.ofNat pool.size).toNat = 1 + (ks.flatMap Constant.filled).length := by
    rw [toNat_ofNat_count h.size_le, size_eq_of_slots h.slots]
  rw [encode, h.encodeConstants_eq] at hpasses
  exact read_eq_ok.mpr ⟨ks, _, _, inOrder_flatMap fun k hk => Constant.laid_encode (h.fits k hk),
    hcount, h.slots, hpasses⟩

end ConstantPool

end Backref
