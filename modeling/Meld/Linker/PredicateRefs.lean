import Meld.Linker.Output

/-!
# References to predicates

What an id of a predicate denotes in its program, and what it denotes in the output. The linker's id
of a predicate is the place of the predicate that it was linked to (`linkedTo`), unless it was never
set (`strayId`); a byte of byte-code holds a predicate's id modulo 128, a rule's list holds it modulo
256, the byte-code of functions is not printed, and that in a block which several nodes share is
printed once for each of them. `predicatesKept_iff` says for which programs every id denotes the same
predicate before and after linking.
-/

namespace Meld.Linker

open Lib Lib.Bytes Vm Vm.Bytecode Traversal

variable (mem : Memory) (primary : Program) (secondaries : List Program)

/-! ### What an id denotes -/

/-- The predicate that the program of the file exports under the name. -/
def exported (imp : Import) : Option Entry :=
  (secondaries.zipIdx.find? fun p => p.1.name == imp.file).bind fun p =>
    if imp.imp ∈ p.1.exports then
      (p.1.getPredicateByName imp.imp).map fun i =>
        if i < commonPredicates then ⟨.primary, i⟩ else ⟨.secondary p.2, i⟩
    else none

/-- The import of a predicate. -/
def importOf (e : Entry) : Option Import :=
  (getProgram primary secondaries e.source).bind fun prog =>
    (prog.predicates[e.id]?).bind fun p => prog.importOf p.name

/-- What a predicate denotes in its program: a common predicate, the predicate that it is imported
from, or itself. -/
def denoted (e : Entry) : Option Entry :=
  if e.id < commonPredicates then some ⟨.primary, e.id⟩
  else match importOf primary secondaries e with
    | some imp => exported secondaries imp
    | none => some e

/-- The predicate whose place in the table is the linker id, if it was set. -/
def linkedTo (e : Entry) : Option Entry :=
  match e.source with
  | .secondary _ => if e.id < commonPredicates then none else some e
  | .primary =>
    if isImported primary e.id then
      (importOf primary secondaries e).bind fun imp =>
        (findPredicate secondaries imp.imp).bind fun p =>
          if p.2 < commonPredicates then none else some ⟨.secondary p.1, p.2⟩
    else some e

/-- What a predicate gets as its linker id when it is linked to no descriptor: what the memory holds
for a common predicate of a secondary program, and its own id when the import is not found. -/
def strayId (e : Entry) : Option ℕ :=
  match e.source with
  | .secondary j => if e.id < commonPredicates then some (mem.predicateId j e.id) else none
  | .primary =>
    if isImported primary e.id then
      ((importOf primary secondaries e).bind fun imp => findPredicate secondaries imp.imp).elim
        (some e.id)
        fun p => if p.2 < commonPredicates then some (mem.predicateId p.1 p.2) else none
    else none

/-- The place of a predicate in the table of the output. -/
def place (e : Entry) : ℕ := (writtenPredicates primary secondaries).idxOf e

/-- The number that the linker gives a predicate, as far as it fits a byte. -/
def linkedNumber (e : Entry) : ℕ :=
  match linkedTo primary secondaries e with
  | some a => place primary secondaries a
  | none => (strayId mem primary secondaries e).getD 0

/-- The numbers that printing writes into the byte-code of the program. -/
def numbering (source : Source) (prog : Program) : Numbering where
  predicate id := linkedNumber mem primary secondaries ⟨source, id⟩
  rule id := ruleLinkerId mem primary secondaries ⟨source, id⟩
  types := prog.predicates.map PredicateDef.types

/-- The id in the output denotes what the id in the program denotes. -/
def Kept (source : Source) (id id' : ℕ) : Prop :=
  ∀ t, denoted primary secondaries ⟨source, id⟩ = some t →
    (writtenPredicates primary secondaries)[id']? = some t

/-- The ids of predicates in byte-code denote the same predicates as what stands in their places in
the written code. -/
def RefsKept (source : Source) (c : Code) (code : List UInt8) : Prop :=
  ∀ k h, c.heads[k]? = some h → ∀ off b, (off, .predicate b) ∈ refsAt h →
    Kept primary secondaries source (predicateGet b)
      (predicateGet (byteAt code (address c.heads k + off)))

/-- All ids of predicates in the output denote the same predicates as in the programs. -/
structure PredicatesKept (l : Linked) : Prop where
  code : EachCode primary secondaries (fun source _ => RefsKept primary secondaries source) l
  rulePredicates : List.Forall₂ (fun e r' => ∀ prog r, HasRule primary secondaries e prog r →
    List.Forall₂ (fun b b' => Kept primary secondaries e.source b.toNat b'.toNat)
      r.predicates r'.predicates) (writtenRules primary secondaries) l.rules

/-! ### When it is kept -/

/-- What the id denotes has a place in the table, which is the number. -/
def PlacedAt (source : Source) (id n : ℕ) : Prop :=
  ∀ t, denoted primary secondaries ⟨source, id⟩ = some t →
    t ∈ writtenPredicates primary secondaries ∧ place primary secondaries t = n

/-- The predicates that the written byte-code and the rules refer to are placed where their numbers
say, after as many printings as there are, and those that the functions refer to do not move. -/
structure PredicatesPlaced : Prop where
  code : EachWritten primary secondaries
    (fun source prog c => ∀ k h, c.heads[k]? = some h → ∀ off b, (off, .predicate b) ∈ refsAt h →
      PlacedAt primary secondaries source (predicateGet b)
        ((numbering mem primary secondaries source prog).after (c.times k) h off b))
    (fun source _ c => ∀ h ∈ c.heads, ∀ off b, (off, .predicate b) ∈ refsAt h →
      PlacedAt primary secondaries source (predicateGet b) (predicateGet b))
  rulePredicates : ∀ e ∈ writtenRules primary secondaries, ∀ prog r,
    HasRule primary secondaries e prog r → ∀ b ∈ r.predicates,
      PlacedAt primary secondaries e.source b.toNat
        (linkedNumber mem primary secondaries ⟨e.source, b.toNat⟩ % 256)

variable {mem primary secondaries} {table : List FuncDef} {l : Linked} {e t : Entry}
  {source : Source} {id n : ℕ}

theorem getElem?_writtenPredicates : (writtenPredicates primary secondaries)[n]? = some t ↔
    t ∈ writtenPredicates primary secondaries ∧ place primary secondaries t = n :=
  getElem?_iff_idxOf nodup_writtenPredicates

theorem kept_iff : Kept primary secondaries source id n ↔ PlacedAt primary secondaries source id n :=
  forall₂_congr fun _ _ => getElem?_writtenPredicates

theorem isImported_iff : isImported primary id = true ↔
    ∃ imp, importOf primary secondaries ⟨.primary, id⟩ = some imp := by
  rw [isImported, Option.any_eq_true]
  simp only [importOf, getProgram, Option.bind_some, Option.bind_eq_some_iff]
  rw [exists_comm]
  refine exists_congr fun p => ?_
  rw [exists_and_left]
  refine and_congr_right fun _ => ?_
  rw [Program.imported, Program.importOf, List.any_eq_true, ← Option.isSome_iff_exists,
    List.getLast?_isSome, Ne, List.filter_eq_nil_iff]
  simp

/-- A predicate is linked to a descriptor, and its linker id is the place of that, or it is stray. -/
theorem linked_or_stray (e : Entry) :
    (∃ a, linkedTo primary secondaries e = some a ∧ strayId mem primary secondaries e = none ∧
      linkerId mem primary secondaries e % 256 = place primary secondaries a % 256) ∨
    (linkedTo primary secondaries e = none ∧ ∃ n, strayId mem primary secondaries e = some n ∧
      linkerId mem primary secondaries e % 256 = n % 256) := by
  obtain ⟨source, id⟩ := e
  cases source with
  | secondary j =>
    by_cases hcommon : id < commonPredicates
    · refine .inr ⟨if_pos hcommon, _, if_pos hcommon, ?_⟩
      rw [linkerId, if_neg (by simp), ownLinkerId]
      simp only [hcommon, if_true]
    · refine .inl ⟨_, if_neg hcommon, if_neg hcommon, ?_⟩
      rw [linkerId, if_neg (by simp), ownLinkerId]
      simp only [hcommon, if_false]
      rfl
  | primary =>
    by_cases himported : isImported primary id = true
    · obtain ⟨imp, himp⟩ := (@isImported_iff _ secondaries _).mp himported
      have himp' : (primary.predicates[id]?.bind fun p => primary.importOf p.name) = some imp :=
        himp
      have hid : linkerId mem primary secondaries ⟨.primary, id⟩ =
          getImportedPredicateId mem primary secondaries id := if_pos ⟨rfl, himported⟩
      simp only [linkedTo, strayId, himported, if_true, himp, Option.bind_some, hid,
        getImportedPredicateId, himp']
      rcases findPredicate secondaries imp.imp with _ | ⟨j, i⟩
      · exact .inr ⟨rfl, id, rfl, rfl⟩
      · by_cases hcommon : i < commonPredicates
        · refine .inr ⟨if_pos hcommon, _, if_pos hcommon, ?_⟩
          simp only [ownLinkerId, hcommon, if_true, Nat.mod_mod]
        · refine .inl ⟨_, if_neg hcommon, if_neg hcommon, ?_⟩
          simp only [ownLinkerId, hcommon, if_false, Nat.mod_mod]
          rfl
    · refine .inl ⟨⟨.primary, id⟩, by simp [linkedTo, himported], by simp [strayId, himported], ?_⟩
      rw [linkerId, if_neg (by simp [himported])]
      rfl

/-- The number is the linker id, as far as it fits a byte. -/
theorem linkerId_mod (e : Entry) :
    linkerId mem primary secondaries e % 256 = linkedNumber mem primary secondaries e % 256 := by
  rcases @linked_or_stray mem _ _ e with ⟨a, ha, -, hid⟩ | ⟨hnone, n, hn, hid⟩
  · rw [linkedNumber, ha]
    exact hid
  · rw [linkedNumber, hnone, hn]
    exact hid

/-- Printing writes the numbers. -/
theorem numbering_of (source : Source) (prog : Program) :
    (numbering mem primary secondaries source prog).Of
      (links mem primary secondaries source prog) where
  predicate hget := by
    rw [links, List.getElem?_mapIdx] at hget
    obtain ⟨p, -, rfl⟩ := Option.map_eq_some_iff.mp hget
    refine UInt8.toNat_inj.mp ?_
    rw [predicateSet, predicateSet, UInt8.toNat_ofNat', UInt8.toNat_ofNat']
    exact linkerId_mod _
  rule hget := by
    rw [links, List.getElem?_map] at hget
    obtain ⟨id, hid, rfl⟩ := Option.map_eq_some_iff.mp hget
    obtain ⟨-, rfl⟩ := List.getElem?_eq_some_iff.mp hid
    rw [List.getElem_range]
    rfl
  types hget := by
    rw [links, List.getElem?_mapIdx] at hget
    obtain ⟨p, hp, rfl⟩ := Option.map_eq_some_iff.mp hget
    rw [numbering, List.getElem?_map, hp]
    rfl

/-! ### The references of the output -/

variable {prog : Program} {c : Code} {code : List UInt8}

/-- Printed code keeps the references whose numbers are the places of what they denote. -/
theorem refsKept_iff (h : printCode (links mem primary secondaries source prog) c = .ok code) :
    RefsKept primary secondaries source c code ↔
      ∀ k h, c.heads[k]? = some h → ∀ off b, (off, .predicate b) ∈ refsAt h →
        PlacedAt primary secondaries source (predicateGet b)
          ((numbering mem primary secondaries source prog).after (c.times k) h off b) := by
  refine forall₃_congr fun k head hk => forall₃_congr fun off b hmem => ?_
  have hread := Ref.predicate.inj (readAt_of_printCode (numbering_of source prog) h hk hmem)
  rw [hread, predicateGet_after hmem, kept_iff]

/-- Copied code keeps the references to predicates that do not move. -/
theorem refsKept_bytes : RefsKept primary secondaries source c c.bytes ↔
    ∀ h ∈ c.heads, ∀ off b, (off, .predicate b) ∈ refsAt h →
      PlacedAt primary secondaries source (predicateGet b) (predicateGet b) := by
  have hread : ∀ {k h off b}, c.heads[k]? = some h → (off, Ref.predicate b) ∈ refsAt h →
      byteAt c.bytes (address c.heads k + off) = b := fun hk hmem =>
    Ref.predicate.inj (readAt_bytes hk hmem)
  constructor
  · intro hkept h hh off b hmem
    obtain ⟨k, hk⟩ := List.mem_iff_getElem?.mp hh
    have hid := hkept k h hk off b hmem
    rwa [hread hk hmem, kept_iff] at hid
  · intro hplaced k h hk off b hmem
    rw [hread hk hmem, kept_iff]
    exact hplaced h (List.mem_of_getElem? hk) off b hmem

/-- The lists of the rules keep the predicates whose numbers are their places. -/
theorem rulePredicates_iff (h : Output mem table primary secondaries l) :
    List.Forall₂ (fun e r' => ∀ prog r, HasRule primary secondaries e prog r →
      List.Forall₂ (fun b b' => Kept primary secondaries e.source b.toNat b'.toNat)
        r.predicates r'.predicates) (writtenRules primary secondaries) l.rules ↔
    ∀ e ∈ writtenRules primary secondaries, ∀ prog r, HasRule primary secondaries e prog r →
      ∀ b ∈ r.predicates, PlacedAt primary secondaries e.source b.toNat
        (linkedNumber mem primary secondaries ⟨e.source, b.toNat⟩ % 256) := by
  refine forall₂_has_iff (R := fun e _ r r' =>
    List.Forall₂ (fun b b' => Kept primary secondaries e.source b.toNat b'.toNat)
      r.predicates r'.predicates)
    (P := fun e _ r => ∀ b ∈ r.predicates, PlacedAt primary secondaries e.source b.toNat
      (linkedNumber mem primary secondaries ⟨e.source, b.toNat⟩ % 256)) h.written HasRule.unique ?_
  rintro e prog r _ - ⟨c', -, rfl⟩
  rw [linkedRule, List.forall₂_map_right_iff, List.forall₂_same]
  refine forall₂_congr fun b _ => ?_
  rw [UInt8.toNat_ofNat', linkerId_mod, kept_iff]

/-- What keeps the references in byte-code. -/
theorem codeKept_iff (h : Output mem table primary secondaries l) :
    EachCode primary secondaries (fun source _ => RefsKept primary secondaries source) l ↔
      EachWritten primary secondaries
        (fun source prog c => ∀ k h, c.heads[k]? = some h → ∀ off b,
          (off, .predicate b) ∈ refsAt h → PlacedAt primary secondaries source (predicateGet b)
            ((numbering mem primary secondaries source prog).after (c.times k) h off b))
        (fun source _ c => ∀ h ∈ c.heads, ∀ off b, (off, .predicate b) ∈ refsAt h →
          PlacedAt primary secondaries source (predicateGet b) (predicateGet b)) :=
  eachCode_iff (R := fun source _ => RefsKept primary secondaries source) h
    (fun _ hprint => refsKept_iff hprint) fun _ => refsKept_bytes

/-- Every id of a predicate in the output denotes the predicate that it denoted in its program
exactly when the predicates that are referred to are placed where their numbers say. -/
theorem predicatesKept_iff (mem : Memory) (table : List FuncDef) (primary : Program)
    (secondaries : List Program) (l : Linked)
    (h : linker mem table primary secondaries = .ok l) :
    PredicatesKept primary secondaries l ↔ PredicatesPlaced mem primary secondaries := by
  have hout := output_of_linker h
  have hcode := codeKept_iff hout
  have hrules := rulePredicates_iff hout
  constructor
  · intro hkept
    exact ⟨hcode.mp hkept.code, hrules.mp hkept.rulePredicates⟩
  · intro hplaced
    exact ⟨hcode.mpr hplaced.code, hrules.mpr hplaced.rulePredicates⟩

/-! ### Samples -/

/-- Code that allocates a fact. -/
def allocating (id : UInt8) : Code := sampleCode (.alloc id 0) trivial (by simp [Instr.bytes])

/-- Two nodes that share a block, in which a fact is allocated. -/
def sharedCode (id : UInt8) : Code where
  tree := .select [some 0, some 0] (.cons (.instr (.alloc id 0) .done) 0 .nil) .done
  tabled := by simp [Tree.Tabled, Blocks.Tabled, Blocks.groups]
  fits := by simp [Tree.heads, Blocks.groups, Head.Fits]
  size := by
    simp [Tree.bytes, Tree.heads, Blocks.groups, Head.bytes, Instr.bytes]

/-- A program that imports the predicate `x` as `p` from the program `b`, and whose rule allocates
it. -/
def importingSample : Program :=
  { sampleProgram [0x61] [0x78] (by decide) (allocating 8) with
    imports := [⟨[0x70], [0x78], [0x62]⟩]
    imports_nil := fun h => absurd h (by decide)
    numImports := by decide
    importTexts := by decide }

/-- The program `b`, which exports `p`, and whose rule has the code. -/
def exportingSample (code : Code) : Program := sampleProgram [0x62] [0x70] length_sampleName code

/-- Memory that is filled with zeros. -/
def zeros : Memory := ⟨fun _ _ => 0, fun _ _ => 0, fun _ _ _ => 0⟩

/-- A secondary program in which two nodes share the code that allocates the program's own
predicate. -/
theorem predicatesKept_iff_sample :
    ∃ l, linker zeros [] importingSample [exportingSample (sharedCode 8)] = .ok l ∧
      (PredicatesKept importingSample [exportingSample (sharedCode 8)] l ↔
        PredicatesPlaced zeros importingSample [exportingSample (sharedCode 8)]) :=
  ⟨_, rfl, predicatesKept_iff zeros [] importingSample [exportingSample (sharedCode 8)] _ rfl⟩

/-- The second common predicate becomes the first one in the code of a secondary program, when the
memory is filled with zeros. -/
theorem not_predicatesKept : ∃ mem l,
    linker mem [] importingSample [exportingSample (allocating 1)] = .ok l ∧
      ¬ PredicatesKept importingSample [exportingSample (allocating 1)] l := by
  refine ⟨zeros, _, rfl, fun h => ?_⟩
  have hplaced := ((codeKept_iff (output_of_linker rfl)).mp h.code).rules ⟨.secondary 0, 1⟩
    (by decide +kernel) (exportingSample (allocating 1)) _ ⟨rfl, rfl⟩ 0 _ rfl 1 1
      List.mem_cons_self
  exact absurd (hplaced ⟨.primary, 1⟩ (by decide +kernel)).2 (by decide +kernel)

end Meld.Linker
