import Mathlib

/-!
# Byte strings and their readers

An unsigned number of `k` bytes is written with the low byte first (`le`). A reader takes what it
reads off the front of a byte string, and fails when the string is too short. `Reads p l a` says that
`p` reads `l` as `a`, whatever follows; a reader that is put together from others reads what they
read, one after another.
-/

namespace Meld.Lib.Bytes

/-! ### Numbers -/

/-- The number in `k` bytes, the low byte first. -/
def le : ℕ → ℕ → List UInt8
  | 0, _ => []
  | k + 1, n => UInt8.ofNat n :: le k (n / 256)

/-- The number that the bytes hold. -/
def ofLe : List UInt8 → ℕ
  | [] => 0
  | b :: bs => b.toNat + 256 * ofLe bs

@[simp] theorem length_le (k n : ℕ) : (le k n).length = k := by
  induction k generalizing n with
  | zero => rfl
  | succ k ih => rw [le, List.length_cons, ih]

/-- The bytes that do not fit are lost. -/
theorem ofLe_le (k n : ℕ) : ofLe (le k n) = n % 256 ^ k := by
  induction k generalizing n with
  | zero => rw [le, ofLe, Nat.pow_zero, Nat.mod_one]
  | succ k ih =>
    rw [le, ofLe, ih, Nat.pow_succ', Nat.mod_mul]
    exact congrArg (· + _) UInt8.toNat_ofNat'

/-- A number that fits is read back. -/
theorem ofLe_le_of_lt {k n : ℕ} (h : n < 256 ^ k) : ofLe (le k n) = n := by
  rw [ofLe_le, Nat.mod_eq_of_lt h]

/-- The number that some bytes can hold. -/
theorem ofLe_lt (l : List UInt8) : ofLe l < 256 ^ l.length := by
  induction l with
  | nil => exact Nat.one_pos
  | cons b l ih =>
    have hb : b.toNat < 256 := b.toNat_lt
    rw [ofLe, List.length_cons, Nat.pow_succ']
    omega

/-! ### Readers -/

/-- What a reader finds at the front of a byte string, and what is left. -/
abbrev Reader (α : Type) := StateT (List UInt8) Option α

/-- The next bytes. -/
def take (n : ℕ) : Reader (List UInt8) := fun s =>
  if n ≤ s.length then some (s.take n, s.drop n) else none

/-- A number of `k` bytes. -/
def nat (k : ℕ) : Reader ℕ := do return ofLe (← take k)

/-- One after another. -/
def many {α : Type} (p : Reader α) : ℕ → Reader (List α)
  | 0 => pure []
  | n + 1 => do return (← p) :: (← many p n)

/-- A condition on what was read. -/
def check (c : Prop) [Decidable c] : Reader Unit := fun s => if c then some ((), s) else none

section

variable {α β ι : Type} {p : Reader α} {f : α → Reader β} {s l l' rest : List UInt8} {a a' : α}
  {b : β}

/-- Two readers, one after the other. -/
theorem bind_eq_some : (p >>= f) s = some (b, rest) ↔
    ∃ a t, p s = some (a, t) ∧ f a t = some (b, rest) := by
  constructor
  · intro h
    obtain ⟨⟨a, t⟩, hp, hf⟩ := Option.bind_eq_some_iff.mp h
    exact ⟨a, t, hp, hf⟩
  · rintro ⟨a, t, hp, hf⟩
    exact Option.bind_eq_some_iff.mpr ⟨(a, t), hp, hf⟩

/-- A reader that reads nothing. -/
theorem pure_eq_some : (pure a : Reader α) s = some (a', rest) ↔ a = a' ∧ s = rest := by
  change some (a, s) = some (a', rest) ↔ _
  rw [Option.some.injEq, Prod.mk.injEq]

/-- A reader of a fixed number of bytes takes them from the front. -/
theorem take_eq_some {n : ℕ} : take n s = some (l, rest) ↔ s = l ++ rest ∧ l.length = n := by
  rw [take]
  constructor
  · intro h
    split_ifs at h with hn
    rw [Option.some.injEq, Prod.mk.injEq] at h
    obtain ⟨rfl, rfl⟩ := h
    exact ⟨(List.take_append_drop n s).symm, List.length_take_of_le hn⟩
  · rintro ⟨rfl, rfl⟩
    rw [if_pos (by rw [List.length_append]; omega), List.take_left, List.drop_left]

/-- A check reads nothing and succeeds if its condition holds. -/
theorem check_eq_some {c : Prop} [Decidable c] {u : Unit} :
    check c s = some (u, rest) ↔ c ∧ s = rest := by
  rw [check]
  constructor
  · intro h
    split_ifs at h with hc
    rw [Option.some.injEq, Prod.mk.injEq] at h
    exact ⟨hc, h.2⟩
  · rintro ⟨hc, rfl⟩
    rw [if_pos hc]

/-- The reader reads the bytes as the value, whatever follows. -/
def Reads (p : Reader α) (l : List UInt8) (a : α) : Prop := ∀ rest, p (l ++ rest) = some (a, rest)

theorem Reads.pure (a : α) : Reads (Pure.pure a) [] a := fun _ => rfl

/-- What two readers read, one after the other. -/
theorem Reads.bind (hp : Reads p l a) (hf : Reads (f a) l' b) : Reads (p >>= f) (l ++ l') b := by
  intro rest
  rw [bind_eq_some]
  exact ⟨a, l' ++ rest, by rw [List.append_assoc]; exact hp _, hf rest⟩

/-- The value of a reader that is not followed by another one. -/
theorem Reads.map (hp : Reads p l a) (g : α → β) : Reads (p >>= fun a => Pure.pure (g a)) l (g a) := by
  have h : Reads (p >>= fun a => Pure.pure (g a)) (l ++ []) (g a) := hp.bind (.pure (g a))
  rwa [List.append_nil] at h

/-- A check whose condition holds. -/
theorem Reads.check {c : Prop} [Decidable c] (hc : c) (hf : Reads (f a) l b) :
    Reads (check c >>= fun _ => f a) l b := by
  intro rest
  rw [bind_eq_some]
  exact ⟨(), l ++ rest, check_eq_some.mpr ⟨hc, rfl⟩, hf rest⟩

/-- Bytes are read back as they are. -/
theorem reads_take (l : List UInt8) : Reads (take l.length) l l := fun _ =>
  take_eq_some.mpr ⟨rfl, rfl⟩

/-- A number is read back modulo the power that its bytes can hold. -/
theorem reads_nat (k n : ℕ) : Reads (nat k) (le k n) (n % 256 ^ k) := by
  have h := (reads_take (le k n)).map ofLe
  rwa [length_le, ofLe_le] at h

/-- A number that fits is read back. -/
theorem reads_nat_of_lt {k n : ℕ} (h : n < 256 ^ k) : Reads (nat k) (le k n) n := by
  have hread := reads_nat k n
  rwa [Nat.mod_eq_of_lt h] at hread

/-- What was written one after another is read one after another. -/
theorem reads_many {enc : ι → List UInt8} {val : ι → α} {is : List ι}
    (h : ∀ i ∈ is, Reads p (enc i) (val i)) :
    Reads (many p is.length) (is.flatMap enc) (is.map val) := by
  induction is with
  | nil => exact .pure []
  | cons i is ih =>
    rw [List.flatMap_cons]
    have hrest := (ih fun j hj => h j (List.mem_cons_of_mem i hj)).map (val i :: ·)
    exact (h i (List.mem_cons_self ..)).bind hrest

/-- A reader that is used a number of times gives as many results. -/
theorem length_of_many {n : ℕ} {as : List α} (h : many p n s = some (as, rest)) :
    as.length = n := by
  induction n generalizing s as rest with
  | zero =>
    obtain ⟨rfl, -⟩ := pure_eq_some.mp h
    rfl
  | succ n ih =>
    obtain ⟨a, t, -, h⟩ := bind_eq_some.mp h
    obtain ⟨as', t', hmany, h⟩ := bind_eq_some.mp h
    obtain ⟨rfl, -⟩ := pure_eq_some.mp h
    rw [List.length_cons, ih hmany]

end

/-! ### Blobs and tables -/

/-- A table: its entries after their number. -/
def counted {α : Type} (k : ℕ) (p : Reader α) : Reader (List α) := do many p (← nat k)

section

variable {α β ι : Type} {p : Reader α} {k : ℕ}

/-- A reader that is called when there is something to read. -/
theorem Reads.ite {c : Prop} [Decidable c] {q : Reader α} {l l' : List UInt8} {a a' : α}
    (h : c → Reads p l a) (h' : ¬ c → Reads q l' a') :
    Reads (if c then p else q) (if c then l else l') (if c then a else a') := by
  split_ifs with hc
  · exact h hc
  · exact h' hc

/-! ### What is found -/

/-- All that the reader finds has the property. -/
def Finds (p : Reader α) (P : α → Prop) : Prop := ∀ s a rest, p s = some (a, rest) → P a

/-- A result that meets the condition. -/
theorem finds_pure {a : α} {P : α → Prop} (h : P a) : Finds (Pure.pure a) P := by
  intro s a' rest ha
  obtain ⟨rfl, -⟩ := pure_eq_some.mp ha
  exact h

/-- The condition on the first result leads to one on the second. -/
theorem Finds.bind {f : α → Reader β} {P : α → Prop} {Q : β → Prop} (hp : Finds p P)
    (hf : ∀ a, P a → Finds (f a) Q) : Finds (p >>= f) Q := by
  intro s b rest hb
  obtain ⟨a, t, ha, hb⟩ := bind_eq_some.mp hb
  exact hf a (hp _ _ _ ha) _ _ _ hb

/-- The condition of a check holds behind it. -/
theorem Finds.check {c : Prop} [Decidable c] {f : Unit → Reader β} {Q : β → Prop}
    (hf : c → Finds (f ()) Q) : Finds (check c >>= f) Q := by
  intro s b rest hb
  obtain ⟨u, t, hc, hb⟩ := bind_eq_some.mp hb
  exact hf (check_eq_some.mp hc).1 _ _ _ hb

/-- Every result of a reader that is used a number of times meets its condition. -/
theorem Finds.many {P : α → Prop} (hp : Finds p P) (n : ℕ) :
    Finds (Bytes.many p n) fun as => as.length = n ∧ ∀ a ∈ as, P a := by
  induction n with
  | zero => exact finds_pure ⟨rfl, fun a ha => absurd ha List.not_mem_nil⟩
  | succ n ih =>
    refine hp.bind fun a ha => ih.bind fun as has => finds_pure ⟨?_, ?_⟩
    · rw [List.length_cons, has.1]
    · exact List.forall_mem_cons.mpr ⟨ha, has.2⟩

end

end Meld.Lib.Bytes
