import Meld.Linker.ExternTable
import Meld.Vm.Advance

/-!
# External functions

The machine keeps its external functions in a table, which numbers them in the order in which they
are registered. Before the definitions of a byte-code file come the functions of the machine itself;
`CALLE` names a definition by its place in the file, and the machine adds the number of its own
functions (`REGISTER_OFFSET`).

A definition with more than three arguments is read and printed, but not registered, so every later
definition is called under the number of the one after it.
-/

namespace Meld.Vm

open Lib Lib.Bytes Linker Bytecode

/-! ### The table -/

/-- The functions of `namespace external`. -/
inductive BuiltIn
  | sigmoid | randint | normalize | damp | divide | convolve | addfloatlists | intlistlength
  | intlistdiff | intlistnth | concatenate | str2float | str2int | nodelistremove | wastetime
  | truncate | float2int | int2str | float2str | intlistsub | intlistappend | str2intlist
  | filecountwords | residual | nodelistlength | nodelistcount | nodelistappend | nodePriority
  | nodelistreverse | nodelistlast | cpuId | node2int | intpower | intlistsort
  | intlistremoveduplicates | degeneratevector | demergemessages | intlistequal
  deriving DecidableEq, Repr

/-- `external_function_ptr`: a function of the machine, or what was found in a library. -/
inductive ExternalFunctionPtr
  | builtIn (f : BuiltIn)
  | loaded (pointer : UInt64)
  deriving DecidableEq, Repr

/-- `external_function`; a type is the byte that stands for it. -/
structure ExternalFunction where
  ptr : ExternalFunctionPtr
  ret : UInt8
  spec : List UInt8
  deriving DecidableEq, Repr

/-- `get_num_args`. -/
def ExternalFunction.numArgs (f : ExternalFunction) : ℕ := f.spec.length

/-- The byte of a `field_type`. -/
def FieldType.code : FieldType → UInt8
  | .item .int => 0
  | .item .float => 1
  | .item .node => 2
  | .list .int => 3
  | .list .float => 4
  | .list .node => 5
  | .string => 9

/-- `external_counter`, `hash_external` and `external_functions_initialised`. -/
structure Externals where
  counter : ℕ
  hash : ℕ → Option ExternalFunction
  initialised : Bool

namespace Externals

/-- When the machine starts. -/
def start : Externals := ⟨0, fun _ => none, false⟩

/-- `register_external_function`. -/
def registerExternalFunction (t : Externals) (ex : ExternalFunction) : Externals :=
  { t with
    counter := t.counter + 1
    hash := fun id => if id = t.counter then some ex else t.hash id }

/-- `lookup_external_function`. -/
def lookupExternalFunction (t : Externals) (id : ℕ) : Exec ExternalFunction :=
  match t.hash id with
  | some ex => .ok ex
  | none => .error .assertion

end Externals

private abbrev int := FieldType.item .int
private abbrev float := FieldType.item .float
private abbrev node := FieldType.item .node
private abbrev listInt := FieldType.list .int
private abbrev listFloat := FieldType.list .float
private abbrev listNode := FieldType.list .node

/-- The functions of the machine with the types of their results and of their arguments, in the
order in which they are registered. -/
def builtIns : List (BuiltIn × FieldType × List FieldType) :=
  [(.sigmoid, float, [float]),
   (.randint, int, [int]),
   (.normalize, listFloat, [listFloat]),
   (.damp, listFloat, [listFloat, listFloat, float]),
   (.divide, listFloat, [listFloat, listFloat]),
   (.convolve, listFloat, [listFloat, listFloat]),
   (.addfloatlists, listFloat, [listFloat, listFloat]),
   (.intlistlength, int, [listInt]),
   (.intlistdiff, listInt, [listInt, listInt]),
   (.intlistnth, int, [listInt, int]),
   (.concatenate, .string, [.string, .string]),
   (.str2float, float, [.string]),
   (.str2int, int, [.string]),
   (.nodelistremove, listNode, [listNode, node]),
   (.wastetime, int, [int]),
   (.truncate, float, [float, int]),
   (.float2int, int, [float]),
   (.int2str, .string, [int]),
   (.float2str, .string, [float]),
   (.intlistsub, listInt, [listInt, int, int]),
   (.intlistappend, listInt, [listInt, listInt]),
   (.str2intlist, listInt, [.string]),
   (.filecountwords, int, [.string, int]),
   (.residual, float, [listFloat, listFloat]),
   (.nodelistlength, int, [listNode]),
   (.nodelistcount, int, [listNode, node]),
   (.nodelistappend, listNode, [listNode, listNode]),
   (.nodePriority, float, [node]),
   (.nodelistreverse, listNode, [listNode]),
   (.nodelistlast, node, [listNode]),
   (.cpuId, int, [node]),
   (.node2int, int, [node]),
   (.intpower, int, [int, int]),
   (.intlistsort, listInt, [listInt]),
   (.intlistremoveduplicates, listInt, [listInt]),
   (.degeneratevector, listInt, [int, int]),
   (.demergemessages, listInt, [listInt, listInt]),
   (.intlistequal, int, [listInt, listInt])]

/-- The entry of a function of the machine. -/
def builtInFunction (f : BuiltIn × FieldType × List FieldType) : ExternalFunction :=
  ⟨.builtIn f.1, f.2.1.code, f.2.2.map FieldType.code⟩

/-- `init_external_functions`. -/
def initExternalFunctions (t : Externals) : Externals :=
  if t.initialised then t
  else (builtIns.map builtInFunction).foldl Externals.registerExternalFunction
    { t with initialised := true }

/-! ### Loading -/

section

variable (getFunctionPointer : Text → Text → UInt64)

/-- `add_external_function`, for a pointer that was found in a library. -/
def addExternalFunction (t : Externals) (ptr : UInt64) (ret : UInt8) (arg : List UInt8) :
    Externals :=
  match arg with
  | [] | [_] | [_, _] | [_, _, _] => t.registerExternalFunction ⟨.loaded ptr, ret, arg⟩
  | _ => t

/-- The definitions of a byte-code file, whose functions `get_function_pointer` finds by the path of
the library and by the name. -/
def addDefinitions (t : Externals) (ds : List ExternDefinition) : Externals :=
  ds.foldl (fun t d => addExternalFunction t (getFunctionPointer d.filename d.externName) d.retType
    d.argType) t

/-- The external functions in the constructor of `program`. -/
def loadExterns (version : ℕ) (t : Externals) : Reader Externals :=
  if 6 ≤ version then do
    return addDefinitions getFunctionPointer (initExternalFunctions t) (← readExterns version)
  else pure t

/-- `REGISTER_OFFSET`. -/
def registerOffset : ℕ := 38

/-- The function that `execute_calle` looks up for the instruction at `pc`. -/
def calleFunction (t : Externals) (pc : List UInt8) : Exec ExternalFunction := do
  t.lookupExternalFunction ((← byteGet pc 1).toNat + registerOffset)

/-- The external function of a definition. -/
def definedFunction (d : ExternDefinition) : ExternalFunction :=
  ⟨.loaded (getFunctionPointer d.filename d.externName), d.retType, d.argType⟩

/-! ### What is registered -/

/-- The functions are numbered in their order. -/
def Externals.Lists (t : Externals) (fs : List ExternalFunction) : Prop :=
  t.counter = fs.length ∧ ∀ id, t.hash id = fs[id]?

variable {getFunctionPointer} {t : Externals} {fs : List ExternalFunction}

/-- A function that is registered comes last. -/
theorem Externals.Lists.register (h : t.Lists fs) (ex : ExternalFunction) :
    (t.registerExternalFunction ex).Lists (fs ++ [ex]) := by
  refine ⟨?_, fun id => ?_⟩
  · rw [Externals.registerExternalFunction, h.1, List.length_append, List.length_singleton]
  · rw [Externals.registerExternalFunction, h.1, List.getElem?_append]
    simp only [h.2 id]
    rcases lt_trichotomy id fs.length with hlt | rfl | hgt
    · rw [if_neg hlt.ne, if_pos hlt]
    · rw [if_pos rfl, if_neg (lt_irrefl _), Nat.sub_self]
      rfl
    · rw [if_neg hgt.ne', if_neg hgt.le.not_gt, List.getElem?_eq_none hgt.le,
        List.getElem?_eq_none (by rw [List.length_singleton]; omega)]

/-- So do any number of them, in their order. -/
theorem Externals.Lists.registerAll (h : t.Lists fs) (exs : List ExternalFunction) :
    (exs.foldl Externals.registerExternalFunction t).Lists (fs ++ exs) := by
  induction exs generalizing t fs with
  | nil => rwa [List.append_nil]
  | cons ex exs ih =>
    have hrest := ih (h.register ex)
    rwa [List.append_assoc, List.singleton_append] at hrest

/-- What a definition adds to the table. -/
def added (getFunctionPointer : Text → Text → UInt64) (d : ExternDefinition) :
    List ExternalFunction :=
  if d.argType.length ≤ 3 then [definedFunction getFunctionPointer d] else []

/-- `add_external_function` knows functions of up to three arguments. -/
theorem addExternalFunction_eq (t : Externals) (ptr : UInt64) (ret : UInt8) (arg : List UInt8) :
    addExternalFunction t ptr ret arg =
      if arg.length ≤ 3 then t.registerExternalFunction ⟨.loaded ptr, ret, arg⟩ else t := by
  match arg with
  | [] | [_] | [_, _] | [_, _, _] => exact (if_pos (by simp)).symm
  | _ :: _ :: _ :: _ :: rest => exact (if_neg (by simp)).symm

/-- The definitions add their functions, but for those with too many arguments. -/
theorem Externals.Lists.add (h : t.Lists fs) (ds : List ExternDefinition) :
    (addDefinitions getFunctionPointer t ds).Lists
      (fs ++ ds.flatMap (added getFunctionPointer)) := by
  induction ds generalizing t fs with
  | nil => rwa [List.flatMap_nil, List.append_nil]
  | cons d ds ih =>
    rw [addDefinitions, List.foldl_cons, addExternalFunction_eq, List.flatMap_cons, added]
    split_ifs
    · rw [← List.append_assoc]
      exact ih (h.register _)
    · rw [List.nil_append]
      exact ih h

/-- The table begins with the functions that are built in. -/
theorem lists_initExternalFunctions :
    (initExternalFunctions .start).Lists (builtIns.map builtInFunction) := by
  have hstart : Externals.Lists { Externals.start with initialised := true } [] :=
    ⟨rfl, fun _ => rfl⟩
  exact hstart.registerAll _

/-- The first id for a definition follows those of the functions that are built in. -/
theorem length_builtIns : (builtIns.map builtInFunction).length = registerOffset := rfl

/-- A function is found by its place in the table. -/
theorem lookup_eq_ok (h : t.Lists fs) {id : ℕ} {ex : ExternalFunction} :
    t.lookupExternalFunction id = .ok ex ↔ fs[id]? = some ex := by
  rw [Externals.lookupExternalFunction, ← h.2 id]
  cases t.hash id with
  | none => exact iff_of_false nofun nofun
  | some ex' => rw [Except.ok.injEq, Option.some.injEq]

/-- After the functions of the machine, `CALLE` finds what the definitions added to the table. -/
theorem calleFunction_eq_ok {ds : List ExternDefinition} {i dest : UInt8} {args : List Val}
    {tail : List UInt8} {ex : ExternalFunction} :
    calleFunction (addDefinitions getFunctionPointer (initExternalFunctions .start) ds)
        ((Instr.calle i dest args).bytes ++ tail) = .ok ex ↔
      (ds.flatMap (added getFunctionPointer))[i.toNat]? = some ex := by
  have hlists : (addDefinitions getFunctionPointer (initExternalFunctions .start) ds).Lists
      (builtIns.map builtInFunction ++ ds.flatMap (added getFunctionPointer)) :=
    lists_initExternalFunctions.add ds
  have hplace : (builtIns.map builtInFunction ++ ds.flatMap (added getFunctionPointer))[
      i.toNat + registerOffset]? = (ds.flatMap (added getFunctionPointer))[i.toNat]? := by
    rw [← length_builtIns, List.getElem?_append_right (Nat.le_add_left _ _), Nat.add_sub_cancel]
  rw [← hplace]
  exact lookup_eq_ok hlists

/-- Only a definition with three arguments at most adds a function. -/
theorem mem_flatMap_added {ds : List ExternDefinition} {d : ExternDefinition}
    (h : definedFunction getFunctionPointer d ∈ ds.flatMap (added getFunctionPointer)) :
    d.argType.length ≤ 3 := by
  obtain ⟨d', -, hd'⟩ := List.mem_flatMap.mp h
  rw [added] at hd'
  split_ifs at hd' with hle
  · have hspec := congrArg ExternalFunction.spec (List.mem_singleton.mp hd')
    exact (congrArg List.length hspec).trans_le hle
  · exact absurd hd' List.not_mem_nil

/-- Where no definition has more than three arguments, each adds its function. -/
theorem flatMap_added {ds : List ExternDefinition} (h : ∀ d ∈ ds, d.argType.length ≤ 3) :
    ds.flatMap (added getFunctionPointer) = ds.map (definedFunction getFunctionPointer) := by
  rw [List.map_eq_flatMap]
  exact List.flatMap_congr fun d hd => if_pos (h d hd)

end

/-- `CALLE` looks up the function of the definition that it names. -/
def CallsDefined (getFunctionPointer : Text → Text → UInt64) (ds : List ExternDefinition)
    (t : Externals) : Prop :=
  ∀ (i dest : UInt8) (args : List Val) (tail : List UInt8) (d : ExternDefinition),
    ds[i.toNat]? = some d →
    calleFunction t ((Instr.calle i dest args).bytes ++ tail) =
      .ok (definedFunction getFunctionPointer d)

/-- After a file was loaded, `CALLE` looks up the functions of its definitions exactly when none of
those that it can name has more than three arguments. -/
theorem callsDefined_iff (getFunctionPointer : Text → Text → UInt64) (version : ℕ)
    (s rest : List UInt8) (ds : List ExternDefinition)
    (h : readExterns version s = some (ds, rest)) :
    ∃ t, loadExterns getFunctionPointer version .start s = some (t, rest) ∧
      (CallsDefined getFunctionPointer ds t ↔ ∀ d ∈ ds.take 256, d.argType.length ≤ 3) := by
  by_cases hversion : 6 ≤ version
  · refine ⟨addDefinitions getFunctionPointer (initExternalFunctions .start) ds, ?_, ?_⟩
    · rw [loadExterns, if_pos hversion]
      exact bind_eq_some.mpr ⟨ds, rest, h, rfl⟩
    · constructor
      · intro hcalls d hd
        obtain ⟨i, hi⟩ := List.mem_iff_getElem?.mp hd
        have hlt : i < 256 := by
          have := (List.getElem?_eq_some_iff.mp hi).1
          rw [List.length_take] at this
          omega
        rw [List.getElem?_take_of_lt hlt] at hi
        have hi' : ds[(UInt8.ofNat i).toNat]? = some d := by
          rwa [UInt8.toNat_ofNat_of_lt' hlt]
        have hfound := calleFunction_eq_ok.mp (hcalls (.ofNat i) 0 [] [] d hi')
        exact mem_flatMap_added (List.mem_of_getElem? hfound)
      · intro hle i dest args tail d hd
        have hlt : i.toNat < (ds.take 256).length := by
          have := (List.getElem?_eq_some_iff.mp hd).1
          have := i.toNat_lt
          rw [List.length_take]
          omega
        rw [calleFunction_eq_ok, ← List.take_append_drop 256 ds, List.flatMap_append,
          flatMap_added hle, List.getElem?_append_left (by rwa [List.length_map]),
          List.getElem?_map, List.getElem?_take_of_lt i.toNat_lt, hd, Option.map_some]
  · -- no definitions are read before the version 0.7
    rw [readExterns, if_neg (by omega)] at h
    obtain ⟨rfl, rfl⟩ := pure_eq_some.mp h
    refine ⟨.start, by rw [loadExterns, if_neg hversion]; rfl, ?_⟩
    exact iff_of_true (fun i _ _ _ d hd => by cases hd) (fun d hd => by cases hd)

/-! ### Samples -/

/-- A definition of a function with as many arguments. -/
def sampleDefinition (id : UInt32) (letter : UInt8) (n : ℕ) (h : n < 2 ^ 32 - 1) : Extern :=
  { sampleExtern id letter [] (by decide) with
    types := List.replicate (n + 1) 0
    types_ne := List.cons_ne_nil _ _
    length_types := by rw [List.length_replicate]; omega }

/-- Definitions of functions without, with three and with one argument. -/
def sampleDefinitions : List Extern :=
  [sampleDefinition 0 0x66 0 (by decide), sampleDefinition 1 0x67 3 (by decide),
    sampleDefinition 2 0x68 1 (by decide)]

/-- A library in which each function has an address of its own. -/
def samplePointer (_ name : Text) : UInt64 := .ofNat (0x1000 + (name.headD 0).toNat)

/-- The table of the definitions is read back. -/
theorem readExterns_sample (es : List Extern) (h : es.length < 2 ^ 32) :
    readExterns 7 (le 4 es.length ++ es.flatMap Extern.bytes) =
      some (es.map Extern.definition, []) := by
  have hread : Reads (readExterns 7) (le 4 es.length ++ es.flatMap Extern.bytes)
      (es.map Extern.definition) :=
    (reads_nat_of_lt h).bind (reads_many fun e _ => reads_extern e)
  have hnil := hread []
  rwa [List.append_nil] at hnil

/-- Three definitions. -/
theorem callsDefined_iff_sample : ∃ t,
    loadExterns samplePointer 7 .start (le 4 3 ++ sampleDefinitions.flatMap Extern.bytes) =
      some (t, []) ∧
    (CallsDefined samplePointer (sampleDefinitions.map Extern.definition) t ↔
      ∀ d ∈ (sampleDefinitions.map Extern.definition).take 256, d.argType.length ≤ 3) :=
  callsDefined_iff samplePointer 7 _ [] _ (readExterns_sample sampleDefinitions (by decide))

/-- After a definition with four arguments, `CALLE` finds the function of the next one. -/
theorem not_callsDefined : ∃ s ds t,
    readExterns 7 s = some (ds, []) ∧
    loadExterns (fun _ _ => 0) 7 .start s = some (t, []) ∧
    ¬ CallsDefined (fun _ _ => 0) ds t := by
  have hread := readExterns_sample
    [sampleDefinition 0 0x66 4 (by decide), sampleDefinition 1 0x67 0 (by decide)] (by decide)
  refine ⟨_, _, _, hread, bind_eq_some.mpr ⟨_, _, hread, rfl⟩, fun h => ?_⟩
  have hcalls := calleFunction_eq_ok.mp (h 0 0 [] [] _ rfl)
  exact absurd hcalls (by decide +kernel)

end Meld.Vm
