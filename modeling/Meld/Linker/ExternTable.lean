import Meld.Linker.OtherRefs

/-!
# The table of external functions

A byte-code file ends its first part with the definitions of the external functions: an id, two
buffers of a fixed size with the name of the function and with the path of its library, an address,
and the types. The reader takes the buffers as strings, up to the first zero.

The linker writes the path that the definitions file gives over the beginning of the buffer of the
old path, and writes no zero after it (it does so only for the dummy path). The path can be read
back exactly when there was a zero at the place where it ends.
-/

namespace Meld.Linker

open Lib Lib.Bytes Vm

/-! ### The bytes of the table -/

/-- A definition as it is written. -/
def Extern.bytes (e : Extern) : List UInt8 :=
  le 4 e.id.toNat ++ (e.name ++ (e.file ++ (le 8 e.address.toNat ++
    (le 4 (e.types.length - 1) ++ ([e.types.head e.types_ne] ++ e.types.tail)))))

/-- The table of the output; it comes with the version 0.7. -/
def Linked.externTable (l : Linked) : List UInt8 :=
  if 7 ≤ l.version then le 4 l.numExterns ++ l.externs.flatMap Extern.bytes else []

/-- What the constructor of `program` takes from a definition. -/
structure ExternDefinition where
  externId : ℕ
  externName : Text
  /-- `skip_filename` -/
  filename : Text
  retType : UInt8
  argType : List UInt8
  deriving DecidableEq, Repr

/-- One turn of the loop over the definitions. -/
def readExtern : Reader ExternDefinition := do
  let externId ← nat 4
  let externName ← take 256
  let skipFilename ← take 1024
  let _ ← nat 8
  let numArgs ← nat 4
  let retType ← take 1
  let argType ← take numArgs
  return ⟨externId, cString externName, cString skipFilename, retType.headD 0, argType⟩

/-- The external functions of a program of the version `0.version`. -/
def readExterns (version : ℕ) : Reader (List ExternDefinition) :=
  if 7 ≤ version then do many readExtern (← nat 4) else pure []

/-- What is read of a definition. -/
def Extern.definition (e : Extern) : ExternDefinition :=
  ⟨e.id.toNat, cString e.name, cString e.file, e.types.head e.types_ne, e.types.tail⟩

theorem reads_extern (e : Extern) : Reads readExtern e.bytes e.definition := by
  have hargs : e.types.tail.length = e.types.length - 1 := List.length_tail
  have hnum : e.types.length - 1 < 256 ^ 4 := lt_of_le_of_lt (Nat.sub_le _ _) e.length_types
  have hname : Reads (take 256) e.name e.name := e.length_name ▸ reads_take _
  have hfile : Reads (take 1024) e.file e.file := e.length_file ▸ reads_take _
  have htail : Reads (take (e.types.length - 1)) e.types.tail e.types.tail := hargs ▸ reads_take _
  refine (reads_nat_of_lt e.id.toNat_lt).bind (hname.bind (hfile.bind
    ((reads_nat_of_lt e.address.toNat_lt).bind ((reads_nat_of_lt hnum).bind
      ((reads_take [e.types.head e.types_ne]).bind ?_)))))
  exact htail.map (ExternDefinition.mk e.id.toNat (cString e.name) (cString e.file) _)

variable {mem : Memory} {table : List FuncDef} {primary : Program} {secondaries : List Program}
  {l : Linked}

theorem version_of_linker (h : linker mem table primary secondaries = .ok l) :
    l.version = primary.version ∧
      l.numExterns = (allExterns primary secondaries).length % 2 ^ 32 := by
  rw [linker] at h
  obtain ⟨_, -, h⟩ := bind_eq_ok.mp h
  obtain ⟨_, -, h⟩ := bind_eq_ok.mp h
  obtain ⟨printed, -, h⟩ := bind_eq_ok.mp h
  obtain ⟨printed', -, h⟩ := bind_eq_ok.mp h
  obtain ⟨predicateCode, -, h⟩ := bind_eq_ok.mp h
  obtain ⟨rules, -, h⟩ := bind_eq_ok.mp h
  cases h
  refine ⟨rfl, ?_⟩
  rw [allExterns, List.length_append, List.length_flatMap]

/-! ### The definitions of the output -/

variable (primary secondaries) in
/-- The definitions that the linked file lists. -/
def listedExterns : List Extern :=
  if 7 ≤ primary.version then allExterns primary secondaries else []

/-- The id that is written for the definition at a place of the table. -/
def linkedId (primary : Program) (i : ℕ) (e : Extern) : UInt32 :=
  if i < primary.externs.length then e.id else .ofNat i

theorem linkedExterns_eq : linkedExterns table primary secondaries =
    (allExterns primary secondaries).mapIdx fun i e =>
      linkedExtern table e (linkedId primary i e) := by
  rw [linkedExterns, allExterns, List.mapIdx_append]
  congr 1
  · refine List.ext_getElem? fun i => ?_
    rw [List.getElem?_map, List.getElem?_mapIdx]
    refine Option.map_congr fun e he => ?_
    rw [linkedId, if_pos (List.getElem?_eq_some_iff.mp he).1]
  · refine List.ext_getElem? fun i => ?_
    rw [List.getElem?_mapIdx, List.getElem?_mapIdx]
    refine Option.map_congr fun e _ => ?_
    rw [linkedId, if_neg (by omega), Nat.add_comm]

/-- What the reader finds in the linked file. -/
def foundDefinitions (table : List FuncDef) (primary : Program) (secondaries : List Program) :
    List ExternDefinition :=
  (listedExterns primary secondaries).mapIdx fun i e =>
    (linkedExtern table e (linkedId primary i e)).definition

/-- As long as the number of definitions fits in its field. -/
theorem reads_externTable (h : linker mem table primary secondaries = .ok l)
    (hcount : (listedExterns primary secondaries).length < 2 ^ 32) :
    Reads (readExterns l.version) l.externTable (foundDefinitions table primary secondaries) := by
  obtain ⟨hversion, hnum⟩ := version_of_linker h
  rw [readExterns, Linked.externTable, foundDefinitions, hversion]
  rw [listedExterns] at hcount ⊢
  split_ifs at hcount ⊢
  · have hexterns : l.externs = (allExterns primary secondaries).mapIdx fun i e =>
        linkedExtern table e (linkedId primary i e) :=
      (output_of_linker h).externs.trans linkedExterns_eq
    have hlen : l.externs.length = (allExterns primary secondaries).length := by
      rw [hexterns, List.length_mapIdx]
    have hnum' : l.numExterns = l.externs.length := by rw [hnum, Nat.mod_eq_of_lt hcount, hlen]
    have hmap : (allExterns primary secondaries).mapIdx (fun i e =>
        (linkedExtern table e (linkedId primary i e)).definition) =
        l.externs.map Extern.definition := by
      rw [hexterns]
      refine List.ext_getElem? fun i => ?_
      simp only [List.getElem?_mapIdx, List.getElem?_map, Option.map_map, Function.comp_def]
    rw [hmap, hnum']
    exact (reads_nat_of_lt (hlen ▸ hcount)).bind (reads_many fun e _ => reads_extern e)
  · exact .pure []

/-- No more definitions can be read than their number in its field says. -/
theorem length_lt_of_reads {ds : List ExternDefinition}
    (hreads : Reads (readExterns l.version) l.externTable ds) :
    ds.length < 2 ^ 32 := by
  have hread := hreads []
  rw [readExterns, Linked.externTable] at hread
  split_ifs at hread
  · obtain ⟨n, t, hn, hmany⟩ := bind_eq_some.mp hread
    have hle : Reads (nat 4) (le 4 l.numExterns) (l.numExterns % 256 ^ 4) := reads_nat _ _
    rw [List.append_assoc, hle, Option.some.injEq, Prod.mk.injEq] at hn
    rw [length_of_many hmany, ← hn.1]
    exact Nat.mod_lt _ (by decide)
  · obtain ⟨rfl, -⟩ := pure_eq_some.mp hread
    exact Nat.two_pow_pos 32

/-! ### What they should say -/

/-- The path of the library of a function: what the definitions file gives, or the dummy path. -/
def libraryPath (table : List FuncDef) (name : Text) : Text :=
  match table.find? (·.name == name) with
  | some f => f.file
  | none => cString dummyPath

/-- The definitions of the programs, numbered one after another, with the paths of the libraries. -/
def rightDefinitions (table : List FuncDef) (primary : Program) (secondaries : List Program) :
    List ExternDefinition :=
  (listedExterns primary secondaries).mapIdx fun i e =>
    { e.definition with externId := i, filename := libraryPath table (cString e.name) }

/-- The definitions file gives a path for the function, and the buffer of the old path has a zero
where that path ends; or it gives none. -/
def PathEnds (table : List FuncDef) (e : Extern) : Prop :=
  ∀ f, table.find? (·.name == cString e.name) = some f → e.file[f.file.length]? = some 0

/-- What the linked definitions rely on. -/
structure ExternsFit (table : List FuncDef) (primary : Program) (secondaries : List Program) :
    Prop where
  /-- the number of definitions fits in its field -/
  count : (listedExterns primary secondaries).length < 2 ^ 32
  /-- the definitions of the primary program are numbered from zero -/
  ids : ∀ i e, (listedExterns primary secondaries)[i]? = some e → i < primary.externs.length →
    e.id.toNat = i
  ends : ∀ e ∈ listedExterns primary secondaries, PathEnds table e

/-- A text that is written over the beginning of a buffer is read back when it ends at a zero. -/
theorem cString_append_drop {s old : List UInt8} (hs : 0 ∉ s) (hlt : s.length < old.length) :
    cString (s ++ old.drop s.length) = s ↔ old[s.length]? = some 0 := by
  have hpos : ∀ b ∈ s, decide (b ≠ 0) := fun b hb => decide_eq_true (ne_of_mem_of_not_mem hb hs)
  rw [cString, List.takeWhile_append_of_pos hpos, List.append_right_eq_self,
    List.drop_eq_getElem_cons hlt, List.getElem?_eq_getElem hlt, Option.some.injEq,
    List.takeWhile_cons]
  split_ifs with hne
  · exact iff_of_false not_false (of_decide_eq_true hne)
  · exact iff_of_true rfl (by simpa using hne)

theorem cString_linkedFile (htable : ∀ f ∈ table, 0 ∉ f.file) (e : Extern) :
    cString (linkedFile table e) = libraryPath table (cString e.name) ↔ PathEnds table e := by
  rw [linkedFile, libraryPath, PathEnds]
  cases hfind : table.find? (·.name == cString e.name) with
  | none => exact iff_of_true rfl (fun f hf => by cases hf)
  | some f =>
    have hlt : f.file.length < e.file.length := by
      rw [e.length_file]
      exact lt_trans f.length_file (by decide)
    have hends := cString_append_drop (htable f (List.mem_of_find?_eq_some hfind)) hlt
    exact hends.trans ⟨fun h g hg => Option.some.inj hg ▸ h, fun h => h f rfl⟩

/-- The reader finds the right definitions in the linked file exactly when they fit. -/
theorem reads_externs_iff (mem : Memory) (table : List FuncDef) (primary : Program)
    (secondaries : List Program) (l : Linked)
    (h : linker mem table primary secondaries = .ok l) (htable : ∀ f ∈ table, 0 ∉ f.file) :
    Reads (readExterns l.version) l.externTable (rightDefinitions table primary secondaries) ↔
      ExternsFit table primary secondaries := by
  have hlen : (rightDefinitions table primary secondaries).length =
      (listedExterns primary secondaries).length := List.length_mapIdx
  have hentry (i : ℕ) (e : Extern) (hi : i < (listedExterns primary secondaries).length)
      (hcount : (listedExterns primary secondaries).length < 2 ^ 32) :
      (linkedExtern table e (linkedId primary i e)).definition =
        { e.definition with externId := i, filename := libraryPath table (cString e.name) } ↔
      (i < primary.externs.length → e.id.toNat = i) ∧ PathEnds table e := by
    rw [← cString_linkedFile htable e]
    have hid : (linkedId primary i e).toNat = i ↔
        (i < primary.externs.length → e.id.toNat = i) := by
      rw [linkedId]
      split_ifs with hprimary
      · exact ⟨fun h _ => h, fun h => h hprimary⟩
      · refine iff_of_true ?_ fun h => absurd h hprimary
        exact UInt32.toNat_ofNat_of_lt' (lt_trans hi hcount)
    simp only [linkedExtern, Extern.definition, ExternDefinition.mk.injEq, true_and, and_true, hid]
  have hall (hcount : (listedExterns primary secondaries).length < 2 ^ 32) :
      foundDefinitions table primary secondaries = rightDefinitions table primary secondaries ↔
        ∀ i e, (listedExterns primary secondaries)[i]? = some e →
          (i < primary.externs.length → e.id.toNat = i) ∧ PathEnds table e := by
    rw [foundDefinitions, rightDefinitions, List.mapIdx_eq_mapIdx_iff]
    constructor
    · intro heq i e he
      obtain ⟨hi, rfl⟩ := List.getElem?_eq_some_iff.mp he
      exact (hentry i _ hi hcount).mp (heq i hi)
    · exact fun hfit i hi => (hentry i _ hi hcount).mpr (hfit i _ (List.getElem?_eq_getElem hi))
  constructor
  · intro hreads
    have hcount : (listedExterns primary secondaries).length < 2 ^ 32 :=
      hlen ▸ length_lt_of_reads hreads
    have hsome := (reads_externTable h hcount []).symm.trans (hreads [])
    rw [Option.some.injEq, Prod.mk.injEq] at hsome
    have hfit := (hall hcount).mp hsome.1
    refine ⟨hcount, fun i e he => (hfit i e he).1, fun e he => ?_⟩
    obtain ⟨i, hi⟩ := List.mem_iff_getElem?.mp he
    exact (hfit i e hi).2
  · intro hfit
    have hright := (hall hfit.count).mpr fun i e he =>
      ⟨hfit.ids i e he, hfit.ends e (List.mem_of_getElem? he)⟩
    rw [← hright]
    exact reads_externTable h hfit.count

/-! ### Samples -/

/-- The definition of a function with a name of one letter, whose library had the path. -/
def sampleExtern (id : UInt32) (letter : UInt8) (path : List UInt8) (hpath : path.length ≤ 1024) :
    Extern where
  id := id
  name := letter :: List.replicate 255 0
  file := path ++ List.replicate (1024 - path.length) 0
  address := 0
  types := [0]
  length_name := by rw [List.length_cons, List.length_replicate]
  length_file := by
    rw [List.length_append, List.length_replicate]
    omega
  types_ne := by decide
  length_types := by decide

/-- A program with functions. -/
def externSample (file : Text) (externs : List Extern) : Program :=
  { sampleProgram file [0x70] length_sampleName noCode with
    externs := externs }

/-- The definitions file with the path `/o` for the function `f`. -/
def sampleTable : List FuncDef := [⟨[0x66], [0x2f, 0x6f], by decide⟩]

/-- Two functions, of which one gets a path that is as long as the old one and one gets none. -/
def primaryExterns : List Extern :=
  [sampleExtern 0 0x66 [0x2f, 0x61] (by decide), sampleExtern 1 0x67 [0x2f, 0x62] (by decide)]

/-- A program with two functions, and one with one more. -/
theorem reads_externs_iff_sample : ∃ l,
    linker zeros sampleTable (externSample [0x61] primaryExterns)
      [externSample [0x62] [sampleExtern 0 0x68 [0x2f] (by decide)]] = .ok l ∧
    (Reads (readExterns l.version) l.externTable
      (rightDefinitions sampleTable (externSample [0x61] primaryExterns)
        [externSample [0x62] [sampleExtern 0 0x68 [0x2f] (by decide)]]) ↔
        ExternsFit sampleTable (externSample [0x61] primaryExterns)
          [externSample [0x62] [sampleExtern 0 0x68 [0x2f] (by decide)]]) :=
  ⟨_, rfl, reads_externs_iff zeros sampleTable (externSample [0x61] primaryExterns)
    [externSample [0x62] [sampleExtern 0 0x68 [0x2f] (by decide)]] _ rfl (by decide)⟩

/-- The path `/o` over the path `/abc` is read back as `/obc`. -/
theorem not_reads_externs : ∃ l,
    linker zeros sampleTable
      (externSample [0x61] [sampleExtern 0 0x66 [0x2f, 0x61, 0x62, 0x63] (by decide)]) [] = .ok l ∧
    ¬ Reads (readExterns l.version) l.externTable
      (rightDefinitions sampleTable
        (externSample [0x61] [sampleExtern 0 0x66 [0x2f, 0x61, 0x62, 0x63] (by decide)]) []) := by
  obtain ⟨l, hl⟩ : ∃ l, linker zeros sampleTable
    (externSample [0x61] [sampleExtern 0 0x66 [0x2f, 0x61, 0x62, 0x63] (by decide)]) [] = .ok l :=
      ⟨_, rfl⟩
  refine ⟨l, hl, fun h => ?_⟩
  have hsome := (reads_externTable hl (by decide +kernel) []).symm.trans (h [])
  rw [Option.some.injEq, Prod.mk.injEq] at hsome
  have hpath := congrArg (List.map ExternDefinition.filename) hsome.1
  exact absurd hpath (by decide +kernel)

end Meld.Linker
