import Meld.Lib.Bytes
import Meld.Lib.Chain

/-!
# Memory as bytes

A memory gives each address a byte. A word is a pointer in eight bytes, the low byte first; the
word zero is the null pointer. `Block` is a range of addresses, and a write into one block leaves
the blocks apart from it as they are. `wordNext` reads the link that a block holds in its first
eight bytes.
-/

namespace Meld.Lib

/-- The byte at each address. -/
abbrev Memory := ℕ → UInt8

/-- The addresses from `addr` on, `size` many. -/
structure Block where
  addr : ℕ
  size : ℕ
  deriving DecidableEq, Repr

namespace Block

variable {b c : Block} {x : ℕ}

/-- The address is one of the block's. -/
def Has (b : Block) (x : ℕ) : Prop := b.addr ≤ x ∧ x < b.addr + b.size

instance (b : Block) (x : ℕ) : Decidable (b.Has x) := inferInstanceAs (Decidable (_ ∧ _))

/-- One block ends before the other begins. -/
def Apart (b c : Block) : Prop := b.addr + b.size ≤ c.addr ∨ c.addr + c.size ≤ b.addr

/-- The block lies inside the other one. -/
def Inside (b c : Block) : Prop := c.addr ≤ b.addr ∧ b.addr + b.size ≤ c.addr + c.size

theorem Apart.symm (h : b.Apart c) : c.Apart b := Or.symm h

theorem Apart.not_has (h : b.Apart c) (hx : b.Has x) : ¬c.Has x := by
  simp only [Apart, Has] at *
  omega

/-- Blocks inside blocks that are apart are apart. -/
theorem Apart.of_inside {b' c' : Block} (h : b.Apart c) (hb : b'.Inside b) (hc : c'.Inside c) :
    b'.Apart c' := by
  simp only [Apart, Inside] at *
  omega

end Block

namespace Memory

variable {m m' : Memory} {a x : ℕ} {bs : List UInt8}

/-- The bytes from an address on. -/
def loadBytes (m : Memory) (a n : ℕ) : List UInt8 := (List.range n).map fun i => m (a + i)

/-- The memory with the bytes written from an address on. -/
def storeBytes (m : Memory) (a : ℕ) (bs : List UInt8) : Memory := fun x =>
  if a ≤ x then (bs[x - a]?).getD (m x) else m x

/-- The pointer at an address. -/
def loadWord (m : Memory) (a : ℕ) : ℕ := Bytes.ofLe (m.loadBytes a 8)

/-- The memory with a pointer written at an address. -/
def storeWord (m : Memory) (a v : ℕ) : Memory := m.storeBytes a (Bytes.le 8 v)

/-- A write changes only the bytes that it writes. -/
theorem storeBytes_of_not_has (h : ¬(Block.mk a bs.length).Has x) : m.storeBytes a bs x = m x := by
  simp only [Block.Has, not_and, not_lt] at h
  rw [storeBytes]
  split_ifs with hx
  · have hlen := h hx
    rw [List.getElem?_eq_none (by omega), Option.getD_none]
  · rfl

theorem storeWord_of_not_has {v : ℕ} (h : ¬(Block.mk a 8).Has x) : m.storeWord a v x = m x :=
  storeBytes_of_not_has (by rwa [Bytes.length_le])

theorem loadBytes_storeBytes (m : Memory) (a : ℕ) (bs : List UInt8) :
    (m.storeBytes a bs).loadBytes a bs.length = bs := by
  refine List.ext_getElem (by simp [loadBytes]) fun i hi hi' => ?_
  simp [loadBytes, storeBytes, List.getElem?_eq_getElem hi']

/-- A pointer that was written is read again. -/
theorem loadWord_storeWord {v : ℕ} (h : v < 2 ^ 64) : (m.storeWord a v).loadWord a = v := by
  have hbytes := loadBytes_storeBytes m a (Bytes.le 8 v)
  rw [Bytes.length_le] at hbytes
  rw [loadWord, storeWord, hbytes, Bytes.ofLe_le_of_lt (by omega)]

/-- A read depends on the bytes that it reads. -/
theorem loadWord_congr (h : ∀ x, (Block.mk a 8).Has x → m' x = m x) :
    m'.loadWord a = m.loadWord a := by
  rw [loadWord, loadWord, loadBytes, loadBytes]
  refine congrArg _ (List.map_congr_left fun i hi => h _ ?_)
  have hlt := List.mem_range.mp hi
  simp only [Block.Has]
  omega

/-- A word as a pointer. -/
def toPtr (w : ℕ) : Option ℕ := if w = 0 then none else some w

/-- A pointer as a word. -/
def ofPtr (p : Option ℕ) : ℕ := p.getD 0

/-- The pointer that an object holds in its first eight bytes. -/
def wordNext (m : Memory) (a : ℕ) : Option ℕ := toPtr (m.loadWord a)

theorem toPtr_ofPtr {p : Option ℕ} (h : ∀ a, p = some a → 0 < a) : toPtr (ofPtr p) = p := by
  cases p with
  | none => rfl
  | some a =>
    have ha := h a rfl
    exact if_neg (by simpa [ofPtr] using ha.ne')

/-- What follows after an object is put in front of a list. -/
theorem chain_storeWord {l : List ℕ} {p : Option ℕ} (h : Chain m.wordNext p l)
    (hp : ∀ a, p = some a → 0 < a ∧ a < 2 ^ 64)
    (hl : ∀ c ∈ l, (Block.mk c 8).Apart ⟨a, 8⟩) :
    Chain (m.storeWord a (ofPtr p)).wordNext (some a) (a :: l) := by
  have hlt : ofPtr p < 2 ^ 64 := by
    cases p with
    | none => exact Nat.two_pow_pos 64
    | some b => exact (hp b rfl).2
  refine ⟨rfl, ?_⟩
  rw [wordNext, loadWord_storeWord hlt, toPtr_ofPtr fun b hb => (hp b hb).1]
  refine h.congr fun c hc => congrArg toPtr (loadWord_congr fun x hx => ?_)
  exact storeWord_of_not_has ((hl c hc).not_has hx)

end Memory

end Meld.Lib
