import Meld.Linker.PredicateRefs

/-!
# References to rules, functions, external functions, strings and constants

Printing writes the linker's ids of rules over the ids of rules, of which it changes the low byte
only, and leaves all other operands as they are. The tables of the output start with those of the
primary program, so that its references are kept; `otherRefsKept_iff` says for which secondary
programs theirs are kept, too.

What a constant stands for is what the code of the constants computes for it. This may call
functions, of the program and external ones, so that it can depend on everything that byte-code finds
by its number: what the constants of such tables are is a parameter here, and a constant of the
primary program is kept when the tables of the output give it the value that it has in the program's
own.
-/

namespace Meld.Linker

open Lib Lib.Bytes Vm Vm.Bytecode Traversal

/-! ### What a reference names -/

/-- What the constants of a program are computed from: their types and their code, and what the code
can refer to. -/
structure ConstTables where
  types : List UInt8
  code : List UInt8
  strings : List Text
  functions : List (List UInt8)
  /-- the names of the external functions -/
  externs : List Text
  /-- the descriptors of the predicates -/
  predicates : List (List UInt8)

def Program.constTables (prog : Program) : ConstTables where
  types := prog.constTypes
  code := prog.constCode.bytes
  strings := prog.strings
  functions := prog.functions.map Code.bytes
  externs := prog.externs.map fun e => cString e.name
  predicates := prog.predicates.map PredicateDef.descriptor

def Linked.constTables (l : Linked) : ConstTables where
  types := l.constTypes
  code := l.constCode
  strings := l.strings
  functions := l.functions
  externs := l.externs.map fun e => cString e.name
  predicates := l.descriptors

/-- What a reference that is not one to a predicate names. -/
inductive Target (V : Type)
  | rule (e : Entry)
  | function (e : Entry)
  | external (name : Text)
  | string (s : Text)
  | const (v : V)

variable {V : Type} (value : ConstTables → ℕ → Option V)

/-- What a reference names in its program. -/
def sourceTarget (source : Source) (prog : Program) : Ref → Option (Target V)
  | .predicate _ => none
  | .rule id => if id.toNat < prog.rules.length then some (.rule ⟨source, id.toNat⟩) else none
  | .function id =>
    if id.toNat < prog.functions.length then some (.function ⟨source, id.toNat⟩) else none
  | .external id => (prog.externs[id.toNat]?).map fun e => .external (cString e.name)
  | .string id => (prog.strings[id.toNat]?).map .string
  | .const id => (value prog.constTables id.toNat).map .const

variable (primary : Program) (secondaries : List Program)

/-- What a reference names in the output. -/
def outputTarget (l : Linked) : Ref → Option (Target V)
  | .predicate _ => none
  | .rule id => ((writtenRules primary secondaries)[id.toNat]?).map .rule
  | .function id => ((writtenFunctions primary secondaries)[id.toNat]?).map .function
  | .external id => (l.externs[id.toNat]?).map fun e => .external (cString e.name)
  | .string id => (l.strings[id.toNat]?).map .string
  | .const id => (value l.constTables id.toNat).map .const

/-- The reference names in the output what it names in its program. -/
def OtherRefKept (l : Linked) (source : Source) (prog : Program) (r r' : Ref) : Prop :=
  ∀ t, sourceTarget value source prog r = some t → outputTarget value primary secondaries l r' = some t

/-- What stands in the written code in the places of the references is kept. -/
def OtherCodeKept (l : Linked) (source : Source) (prog : Program) (c : Code) (code : List UInt8) :
    Prop :=
  ∀ k h, c.heads[k]? = some h → ∀ off r, (off, r) ∈ refsAt h →
    OtherRefKept value primary secondaries l source prog r
      (r.readAt code (address c.heads k + off))

/-- All references in the output name what they name in the programs. -/
structure OtherRefsKept (l : Linked) : Prop where
  code : EachCode primary secondaries (OtherCodeKept value primary secondaries l) l
  constCode : OtherCodeKept value primary secondaries l .primary primary primary.constCode
    l.constCode

/-! ### When they are kept -/

/-- The number of a rule in the output. -/
def rulePlace (e : Entry) : ℕ := (writtenRules primary secondaries).idxOf e

/-- The number of a function in the output. -/
def functionPlace (e : Entry) : ℕ := (writtenFunctions primary secondaries).idxOf e

/-- The external functions of all programs. -/
def allExterns : List Extern := primary.externs ++ secondaries.flatMap Program.externs

variable (mem : Memory)

/-- The constants of the primary program, with what their code can refer to in the output. -/
def linkedTables : ConstTables where
  types := primary.constTypes
  code := primary.constCode.bytes
  strings := primary.strings
  functions := (primary.functions ++ secondaries.flatMap Program.functions).map Code.bytes
  externs := (allExterns primary secondaries).map fun e => cString e.name
  predicates := (writtenPredicates primary secondaries).map (descriptor mem primary secondaries)

/-- The reference stays right. A rule of a secondary program is not the first one, and has the number
that the id becomes when it is printed so often; a function has the number that it gets; and the
external function, the string or the constant of the number are the same. -/
def OtherRefPlaced (n : ℕ) (source : Source) (prog : Program) : Ref → Prop
  | .predicate _ => True
  | .rule id => source ≠ .primary → id.toNat < prog.rules.length → 0 < id.toNat ∧
      rulePlace primary secondaries ⟨source, id.toNat⟩ =
        ((numbering mem primary secondaries source prog).nextRule^[n] id).toNat
  | .function id => source ≠ .primary → id.toNat < prog.functions.length →
      functionPlace primary secondaries ⟨source, id.toNat⟩ = id.toNat
  | .external id => source ≠ .primary → ∀ e, prog.externs[id.toNat]? = some e →
      ∃ e', (allExterns primary secondaries)[id.toNat]? = some e' ∧ cString e'.name = cString e.name
  | .string id => source ≠ .primary →
      ∀ s, prog.strings[id.toNat]? = some s → primary.strings[id.toNat]? = some s
  | .const id => ∀ v, value prog.constTables id.toNat = some v →
      value (linkedTables primary secondaries mem) id.toNat = some v

/-- All references stay right, those of printed code after as many printings as there are. -/
structure OtherRefsPlaced : Prop where
  code : EachWritten primary secondaries
    (fun source prog c => ∀ k h, c.heads[k]? = some h → ∀ off r, (off, r) ∈ refsAt h →
      OtherRefPlaced value primary secondaries mem (c.times k) source prog r)
    (fun source prog c => ∀ h ∈ c.heads, ∀ off r, (off, r) ∈ refsAt h →
      OtherRefPlaced value primary secondaries mem 0 source prog r)
  constCode : ∀ h ∈ primary.constCode.heads, ∀ off r, (off, r) ∈ refsAt h →
    OtherRefPlaced value primary secondaries mem 0 .primary primary r

variable {value primary secondaries mem} {table : List FuncDef} {l : Linked} {source : Source}
  {prog : Program} {r : Ref} {c : Code} {code : List UInt8} {i j n : ℕ}

/-! ### The tables of the output -/

theorem getElem?_writtenRules_primary (h : i < primary.rules.length) :
    (writtenRules primary secondaries)[i]? = some ⟨.primary, i⟩ := by
  rw [writtenRules, entries, List.getElem?_append_left (by simpa using h), List.getElem?_map,
    List.getElem?_range h]
  rfl

theorem getElem?_writtenFunctions_primary (h : i < primary.functions.length) :
    (writtenFunctions primary secondaries)[i]? = some ⟨.primary, i⟩ := by
  rw [writtenFunctions, entries, List.getElem?_append_left (by simpa using h), List.getElem?_map,
    List.getElem?_range h]
  rfl

theorem mem_writtenRules_secondary (hprog : secondaries[j]? = some prog)
    (hi : i < prog.rules.length) :
    (⟨.secondary j, i⟩ : Entry) ∈ writtenRules primary secondaries ↔ 0 < i := by
  rw [writtenRules, mem_entries]
  simp only [hprog, Option.some.injEq, exists_eq_left', List.mem_range'_1]
  omega

theorem mem_writtenFunctions_secondary (hprog : secondaries[j]? = some prog)
    (hi : i < prog.functions.length) :
    (⟨.secondary j, i⟩ : Entry) ∈ writtenFunctions primary secondaries := by
  rw [writtenFunctions, mem_entries]
  exact ⟨prog, hprog, List.mem_range.mpr hi⟩

/-- The external functions of the output are those of the programs. -/
theorem extern_names (h : Output mem table primary secondaries l) :
    l.externs.map Extern.name = (allExterns primary secondaries).map Extern.name := by
  rw [h.externs, linkedExterns, allExterns, List.map_append, List.map_append, List.map_map]
  congr 1
  refine List.ext_getElem? fun k => ?_
  rw [List.getElem?_map, List.getElem?_mapIdx, List.getElem?_map, Option.map_map]
  rfl

theorem extern_cStrings (h : Output mem table primary secondaries l) :
    (l.externs.map fun e => cString e.name) =
      (allExterns primary secondaries).map fun e => cString e.name := by
  have hnames := congrArg (List.map cString) (extern_names h)
  rwa [List.map_map, List.map_map] at hnames

/-- The constants of the output are those of the primary program. -/
theorem constTables_eq (h : Output mem table primary secondaries l) :
    l.constTables = linkedTables primary secondaries mem := by
  rw [Linked.constTables, linkedTables, h.constTypes, h.constCode, h.strings, h.functions,
    extern_cStrings h, h.descriptors]

/-! ### References -/

/-- Printing leaves the rules of the primary program. -/
theorem nextRule_primary {id : UInt32} (hid : id.toNat < primary.rules.length) (n : ℕ) :
    (numbering mem primary secondaries .primary primary).nextRule^[n] id = id := by
  have hplace := ((getElem?_iff_idxOf nodup_writtenRules).mp
    (@getElem?_writtenRules_primary _ secondaries _ hid)).2
  refine Function.iterate_fixed ?_ n
  have hnumber : (numbering mem primary secondaries .primary primary).rule id.toNat = id.toNat :=
    hplace
  rw [Numbering.nextRule, hnumber, ruleSetId, Nat.sub_add_cancel (Nat.mod_le _ _),
    UInt32.ofNat_toNat]

/-- The reference to a rule is kept when its id becomes the number of the rule. -/
theorem ruleKept_iff (hprog : getProgram primary secondaries source = some prog) {id : UInt32} :
    OtherRefKept value primary secondaries l source prog (.rule id)
        (.rule ((numbering mem primary secondaries source prog).nextRule^[n] id)) ↔
      OtherRefPlaced value primary secondaries mem n source prog (.rule id) := by
  rw [OtherRefKept, sourceTarget, OtherRefPlaced]
  by_cases hid : id.toNat < prog.rules.length
  swap
  · rw [if_neg hid]
    exact iff_of_true (fun t ht => by cases ht) fun _ hlt => absurd hlt hid
  rw [if_pos hid]
  simp only [Option.some.injEq, forall_eq', outputTarget, Option.map_eq_some_iff, Target.rule.injEq,
    exists_eq_right, hid, forall_const]
  cases source with
  | primary =>
    obtain rfl := Option.some.inj hprog
    rw [nextRule_primary hid, getElem?_writtenRules_primary hid]
    exact iff_of_true rfl fun hne => absurd rfl hne
  | secondary j =>
    rw [getElem?_iff_idxOf nodup_writtenRules, mem_writtenRules_secondary hprog hid, imp_iff_right
      (by simp)]
    rfl

theorem functionKept_iff (hprog : getProgram primary secondaries source = some prog) {id : UInt8} :
    OtherRefKept value primary secondaries l source prog (.function id) (.function id) ↔
      OtherRefPlaced value primary secondaries mem n source prog (.function id) := by
  rw [OtherRefKept, sourceTarget, OtherRefPlaced]
  by_cases hid : id.toNat < prog.functions.length
  swap
  · rw [if_neg hid]
    exact iff_of_true (fun t ht => by cases ht) fun _ hlt => absurd hlt hid
  rw [if_pos hid]
  simp only [Option.some.injEq, forall_eq', outputTarget, Option.map_eq_some_iff,
    Target.function.injEq, exists_eq_right, hid, forall_const]
  cases source with
  | primary =>
    obtain rfl := Option.some.inj hprog
    exact iff_of_true (getElem?_writtenFunctions_primary hid) fun hne => absurd rfl hne
  | secondary j =>
    rw [getElem?_iff_idxOf nodup_writtenFunctions, imp_iff_right (by simp),
      and_iff_right (mem_writtenFunctions_secondary hprog hid)]
    rfl

/-- Two lookups under one injective map. -/
theorem forall_map_iff {α β : Type} {f : α → β} (hf : f.Injective) {x y : Option α} :
    (∀ b, x.map f = some b → y.map f = some b) ↔ ∀ a, x = some a → y = some a := by
  constructor
  · intro h a ha
    obtain ⟨a', ha', heq⟩ := Option.map_eq_some_iff.mp (h (f a) (by rw [ha, Option.map_some]))
    rwa [hf heq] at ha'
  · intro h b hb
    obtain ⟨a, ha, rfl⟩ := Option.map_eq_some_iff.mp hb
    rw [h a ha, Option.map_some]

theorem externalKept_iff (h : Output mem table primary secondaries l)
    (hprog : getProgram primary secondaries source = some prog) {id : UInt8} :
    OtherRefKept value primary secondaries l source prog (.external id) (.external id) ↔
      OtherRefPlaced value primary secondaries mem n source prog (.external id) := by
  have hnames : ((l.externs[id.toNat]?).map fun e => Target.external (V := V) (cString e.name)) =
      ((allExterns primary secondaries)[id.toNat]?).map fun e => .external (cString e.name) := by
    have hget := congrArg (·[id.toNat]?.map (Target.external (V := V))) (extern_cStrings h)
    simpa only [List.getElem?_map, Option.map_map, Function.comp_def] using hget
  rw [OtherRefKept, OtherRefPlaced, outputTarget, hnames]
  simp only [sourceTarget, Option.map_eq_some_iff]
  have hsame : (∀ e, prog.externs[id.toNat]? = some e →
      ∃ e', (allExterns primary secondaries)[id.toNat]? = some e' ∧
        cString e'.name = cString e.name) ↔
      ∀ t, (∃ e, prog.externs[id.toNat]? = some e ∧ Target.external (V := V) (cString e.name) = t) →
        ∃ e', (allExterns primary secondaries)[id.toNat]? = some e' ∧
          Target.external (cString e'.name) = t := by
    constructor
    · rintro hplaced _ ⟨e, he, rfl⟩
      obtain ⟨e', he', heq⟩ := hplaced e he
      exact ⟨e', he', congrArg _ heq⟩
    · intro hkept e he
      obtain ⟨e', he', heq⟩ := hkept _ ⟨e, he, rfl⟩
      exact ⟨e', he', Target.external.inj heq⟩
  rw [← hsame]
  cases source with
  | primary =>
    obtain rfl := Option.some.inj hprog
    refine iff_of_true (fun e he => ⟨e, ?_, rfl⟩) fun hne => absurd rfl hne
    rw [allExterns, List.getElem?_append_left (List.getElem?_eq_some_iff.mp he).1, he]
  | secondary j => rw [imp_iff_right (by simp)]

theorem stringKept_iff (h : Output mem table primary secondaries l)
    (hprog : getProgram primary secondaries source = some prog) {id : UInt32} :
    OtherRefKept value primary secondaries l source prog (.string id) (.string id) ↔
      OtherRefPlaced value primary secondaries mem n source prog (.string id) := by
  rw [OtherRefKept, OtherRefPlaced, outputTarget, h.strings]
  rw [sourceTarget, forall_map_iff fun _ _ heq => Target.string.inj heq]
  cases source with
  | primary =>
    obtain rfl := Option.some.inj hprog
    exact iff_of_true (fun s hs => hs) fun hne => absurd rfl hne
  | secondary j => rw [imp_iff_right (by simp)]

theorem constKept_iff (h : Output mem table primary secondaries l) {id : UInt32} :
    OtherRefKept value primary secondaries l source prog (.const id) (.const id) ↔
      OtherRefPlaced value primary secondaries mem n source prog (.const id) := by
  rw [OtherRefKept, OtherRefPlaced, outputTarget, constTables_eq h, sourceTarget,
    forall_map_iff fun _ _ heq => Target.const.inj heq]

/-- A reference is kept when it stays right. -/
theorem otherRefKept_iff (h : Output mem table primary secondaries l)
    (hprog : getProgram primary secondaries source = some prog) :
    OtherRefKept value primary secondaries l source prog r
        ((numbering mem primary secondaries source prog).ref n r) ↔
      OtherRefPlaced value primary secondaries mem n source prog r := by
  cases r with
  | predicate b => exact iff_of_true (fun t ht => by cases ht) trivial
  | rule id => exact ruleKept_iff hprog
  | function id => exact functionKept_iff hprog
  | external id => exact externalKept_iff h hprog
  | string id => exact stringKept_iff h hprog
  | const id => exact constKept_iff h

/-! ### The output -/

/-- Printed code keeps the references that stay right. -/
theorem otherCodeKept_iff (h : Output mem table primary secondaries l)
    (hprog : getProgram primary secondaries source = some prog)
    (hprint : printCode (links mem primary secondaries source prog) c = .ok code) :
    OtherCodeKept value primary secondaries l source prog c code ↔
      ∀ k h, c.heads[k]? = some h → ∀ off r, (off, r) ∈ refsAt h →
        OtherRefPlaced value primary secondaries mem (c.times k) source prog r := by
  refine forall₃_congr fun k head hk => forall₃_congr fun off r hmem => ?_
  rw [readAt_of_printCode (numbering_of source prog) hprint hk hmem]
  by_cases hpred : ∃ b, r = .predicate b
  · obtain ⟨b, rfl⟩ := hpred
    exact iff_of_true (fun t ht => by cases ht) trivial
  · rw [readAt_ref hmem fun b hb => hpred ⟨b, hb⟩]
    exact otherRefKept_iff h hprog

/-- So does copied code. -/
theorem otherCodeKept_bytes (h : Output mem table primary secondaries l)
    (hprog : getProgram primary secondaries source = some prog) :
    OtherCodeKept value primary secondaries l source prog c c.bytes ↔
      ∀ h ∈ c.heads, ∀ off r, (off, r) ∈ refsAt h →
        OtherRefPlaced value primary secondaries mem 0 source prog r := by
  have hself : ∀ r, (numbering mem primary secondaries source prog).ref 0 r = r := fun r => by
    cases r <;> rfl
  have hkept : ∀ r, OtherRefKept value primary secondaries l source prog r r ↔
      OtherRefPlaced value primary secondaries mem 0 source prog r := fun r => by
    rw [← otherRefKept_iff h hprog, hself]
  constructor
  · intro hcode head hhead off r hmem
    obtain ⟨k, hk⟩ := List.mem_iff_getElem?.mp hhead
    have href := hcode k head hk off r hmem
    rwa [readAt_bytes hk hmem, hkept] at href
  · intro hplaced k head hk off r hmem
    rw [readAt_bytes hk hmem, hkept]
    exact hplaced head (List.mem_of_getElem? hk) off r hmem

/-- What keeps the references in the code of predicates, rules and functions. -/
theorem otherEachCode_iff (h : Output mem table primary secondaries l) :
    EachCode primary secondaries (OtherCodeKept value primary secondaries l) l ↔
      EachWritten primary secondaries
        (fun source prog c => ∀ k h, c.heads[k]? = some h → ∀ off r, (off, r) ∈ refsAt h →
          OtherRefPlaced value primary secondaries mem (c.times k) source prog r)
        (fun source prog c => ∀ h ∈ c.heads, ∀ off r, (off, r) ∈ refsAt h →
          OtherRefPlaced value primary secondaries mem 0 source prog r) :=
  eachCode_iff h (fun hprog hprint => otherCodeKept_iff h hprog hprint)
    fun hprog => otherCodeKept_bytes h hprog

/-- The references in the output name what they name in the programs exactly when they stay right:
those of the primary program to anything but constants always do. -/
theorem otherRefsKept_iff (value : ConstTables → ℕ → Option V) (mem : Memory)
    (table : List FuncDef) (primary : Program) (secondaries : List Program) (l : Linked)
    (h : linker mem table primary secondaries = .ok l) :
    OtherRefsKept value primary secondaries l ↔
      OtherRefsPlaced value primary secondaries mem := by
  have hout := output_of_linker h
  have hcode := @otherEachCode_iff _ value _ _ _ _ _ hout
  have hconst := @otherCodeKept_bytes _ value _ _ _ _ _ .primary _ primary.constCode hout rfl
  rw [← hout.constCode] at hconst
  constructor
  · intro hkept
    exact ⟨hcode.mp hkept.code, hconst.mp hkept.constCode⟩
  · intro hplaced
    exact ⟨hcode.mpr hplaced.code, hconst.mpr hplaced.constCode⟩

/-! ### Samples -/

/-- Code that calls the first function. -/
def calling : Code := sampleCode (.callf 0) trivial (by simp [Instr.bytes])

/-- A program with a function that does nothing, which its second rule calls. -/
def callingSample (file : Text) : Program :=
  { sampleProgram file [0x70] length_sampleName calling with
    functions := [noCode]
    functions_nil := fun h => absurd h (by simp [sampleProgram]) }

/-- One that imports a predicate from the program `b`. -/
def importingCallingSample : Program :=
  { callingSample [0x61] with
    imports := [⟨[0x70], [0x70], [0x62]⟩]
    imports_nil := fun h => absurd h (by decide)
    numImports := length_sampleImports
    importTexts := length_sampleImportTexts }

/-- What the number of a constant stands for, in programs without constants. -/
def noConst : ConstTables → ℕ → Option Unit := fun _ _ => none

/-- A program that is linked with one in which two nodes share the rule's code. -/
theorem otherRefsKept_iff_sample : ∃ l,
    linker zeros [] importingCallingSample [exportingSample (sharedCode 8)] = .ok l ∧
      (OtherRefsKept noConst importingCallingSample [exportingSample (sharedCode 8)] l ↔
        OtherRefsPlaced noConst importingCallingSample [exportingSample (sharedCode 8)] zeros) :=
  ⟨_, rfl, otherRefsKept_iff noConst zeros [] importingCallingSample
    [exportingSample (sharedCode 8)] _ rfl⟩

/-- The call of a function of a secondary program calls the function of the primary program. -/
theorem not_otherRefsKept : ∃ l,
    linker zeros [] importingCallingSample [callingSample [0x62]] = .ok l ∧
      ¬ OtherRefsKept noConst importingCallingSample [callingSample [0x62]] l := by
  refine ⟨_, rfl, fun h => ?_⟩
  have hplaced := ((otherEachCode_iff (output_of_linker rfl)).mp h.code).rules ⟨.secondary 0, 1⟩
    (by decide +kernel) (callingSample [0x62]) _ ⟨rfl, rfl⟩ 0 _ rfl 1 (.function 0)
      List.mem_cons_self
  exact absurd (hplaced (by decide) (by decide +kernel)) (by decide +kernel)

end Meld.Linker
