import Meld.Linker.Output

/-!
# The names of the linked predicates

The linker renames a predicate of a secondary program: its name, a dot and the name of the file are
copied into the name field of the descriptor, which has 32 bytes. A name that is longer is cut off
and is not terminated inside of its field, and the reader, which takes the bytes up to the first
zero, goes on into the bytes that follow.

Names that are read back are distinct as long as no dot moves between the name of a predicate and
the name of a file.
-/

namespace Meld.Linker

open Lib Lib.Bytes Vm

variable {mem : Memory} {table : List FuncDef} {primary : Program} {secondaries : List Program}
  {l : Linked}

/-! ### The name field -/

/-- The name that the reader takes from a descriptor. -/
def descriptorName (d : List UInt8) : Text := cString (d.drop 40)

/-- `PRED_NAME_SIZE_MAX` bytes. -/
def nameField (d : List UInt8) : List UInt8 := (d.drop 40).take 32

/-- The name that `rename` gives to a predicate. -/
def renamed (name file : Text) : Text := name ++ 0x2e :: file

/-- A text that ends with a zero byte has none inside. -/
theorem zero_notMem_cString (s : List UInt8) : 0 ∉ cString s := fun h => by
  have hne := List.all_eq_true.mp List.all_takeWhile 0 h
  exact absurd rfl (of_decide_eq_true hne)

/-- A name that is put together has no zero byte. -/
theorem zero_notMem_renamed {name file : Text} (hname : 0 ∉ name) (hfile : 0 ∉ file) :
    0 ∉ renamed name file := by
  rw [renamed, List.mem_append, List.mem_cons, not_or, not_or]
  exact ⟨hname, by decide, hfile⟩

/-- A text that fits, with the zero at its end, is read back. -/
theorem cString_take {s rest tail : List UInt8} {n : ℕ} (hs : 0 ∉ s) (hlt : s.length < n) :
    cString ((s ++ 0 :: rest).take n ++ tail) = s := by
  have hpos : ∀ b ∈ s, decide (b ≠ 0) := fun b hb => decide_eq_true (ne_of_mem_of_not_mem hb hs)
  obtain ⟨k, hk⟩ : ∃ k, n - s.length = k + 1 := ⟨n - s.length - 1, by omega⟩
  rw [List.take_append, List.take_of_length_le hlt.le, hk, List.take_succ_cons, List.append_assoc,
    cString, List.takeWhile_append_of_pos hpos, List.cons_append,
    List.takeWhile_cons_of_neg (by simp), List.append_nil]

/-- A field has the zero byte behind a text if the text is shorter than the field. -/
theorem zero_mem_take_iff {s rest : List UInt8} {n : ℕ} (hs : 0 ∉ s) :
    0 ∈ (s ++ 0 :: rest).take n ↔ s.length < n := by
  rw [List.take_append, List.mem_append]
  constructor
  · rintro (hmem | hmem)
    · exact absurd (List.mem_of_mem_take hmem) hs
    · by_contra hle
      rw [Nat.sub_eq_zero_of_le (by omega), List.take_zero] at hmem
      exact absurd hmem List.not_mem_nil
  · intro hlt
    obtain ⟨k, hk⟩ : ∃ k, n - s.length = k + 1 := ⟨n - s.length - 1, by omega⟩
    rw [hk, List.take_succ_cons]
    exact Or.inr (List.mem_cons_self ..)

/-- Two renamed names are the same when their parts are, or when a dot moved. -/
theorem renamed_eq_renamed {name name' file file' : Text}
    (h : renamed name file = renamed name' file') :
    name = name' ∧ file = file' ∨
      (∃ t, name' = renamed name t ∧ file = renamed t file') ∨
      ∃ t, name = renamed name' t ∧ file' = renamed t file := by
  rw [renamed, renamed] at h
  rcases List.append_eq_append_iff.mp h with ⟨t, hname, hfile⟩ | ⟨t, hname, hfile⟩
  · cases t with
    | nil =>
      rw [List.nil_append, List.cons.injEq] at hfile
      exact Or.inl ⟨(hname.trans (List.append_nil _)).symm, hfile.2⟩
    | cons b t =>
      rw [List.cons_append, List.cons.injEq] at hfile
      exact Or.inr (Or.inl ⟨t, by rw [hname, ← hfile.1, renamed], hfile.2⟩)
  · cases t with
    | nil =>
      rw [List.nil_append, List.cons.injEq] at hfile
      exact Or.inl ⟨hname.trans (List.append_nil _), hfile.2.symm⟩
    | cons b t =>
      rw [List.cons_append, List.cons.injEq] at hfile
      exact Or.inr (Or.inr ⟨t, by rw [hname, ← hfile.1, renamed], hfile.2⟩)

/-! ### The names of the output -/

variable (primary secondaries) in
/-- The name that the linker means a predicate to have. -/
def linkedName (e : Entry) : Text :=
  match (getProgram primary secondaries e.source).bind fun prog =>
    (prog.predicates[e.id]?).map (prog, ·) with
  | none => []
  | some (prog, p) =>
    match e.source with
    | .primary => p.name
    | .secondary _ => renamed p.name prog.name

/-- The predicates of the primary keep their names. -/
theorem linkedName_primary {p : PredicateDef} {id : ℕ} (hp : primary.predicates[id]? = some p) :
    linkedName primary secondaries ⟨.primary, id⟩ = p.name := by
  simp only [linkedName, getProgram, Option.bind_some, hp, Option.map_some]

/-- Those of a secondary get the name of its file. -/
theorem linkedName_secondary {prog : Program} {p : PredicateDef} {j id : ℕ}
    (hprog : secondaries[j]? = some prog) (hp : prog.predicates[id]? = some p) :
    linkedName primary secondaries ⟨.secondary j, id⟩ = renamed p.name prog.name := by
  simp only [linkedName, getProgram, hprog, Option.bind_some, hp, Option.map_some]

/-- The name in the descriptor of a predicate of the primary. -/
theorem descriptorName_primary {p : PredicateDef} {id : ℕ} (hp : primary.predicates[id]? = some p) :
    descriptorName (descriptor mem primary secondaries ⟨.primary, id⟩) = p.name := by
  simp only [descriptor, getProgram, Option.bind_some, hp, Option.map_some]
  rfl

variable (mem primary) in
/-- The name field of a predicate of a secondary program, and what follows it. -/
theorem drop_descriptor {prog : Program} {p : PredicateDef} {j id : ℕ}
    (hprog : secondaries[j]? = some prog) (hp : prog.predicates[id]? = some p) :
    ∃ rest tail, (descriptor mem primary secondaries ⟨.secondary j, id⟩).drop 40 =
      (renamed p.name prog.name ++ 0 :: rest).take 32 ++ tail ∧
      ((renamed p.name prog.name ++ 0 :: rest).take 32).length = 32 := by
  refine ⟨(List.range 32).map (mem.afterName j id), p.descriptor.drop 72, ?_, ?_⟩
  · have htake : (p.descriptor.take 40).length = 40 := by
      rw [List.length_take, p.length_descriptor]
      rfl
    simp only [descriptor, getProgram, hprog, Option.bind_some, hp, Option.map_some]
    rw [List.append_assoc, List.drop_append_of_le_length htake.ge, List.drop_eq_nil_of_le htake.le,
      List.nil_append, renamed]
    simp only [List.append_assoc, List.cons_append, List.nil_append]
  · rw [List.length_take, List.length_append, List.length_cons, List.length_map, List.length_range]
    omega

/-- The name in the descriptor of a predicate of a secondary, where it is short enough. -/
theorem descriptorName_secondary {prog : Program} {p : PredicateDef} {j id : ℕ}
    (hprog : secondaries[j]? = some prog) (hp : prog.predicates[id]? = some p)
    (hfile : 0 ∉ prog.name) (hlt : (renamed p.name prog.name).length < 32) :
    descriptorName (descriptor mem primary secondaries ⟨.secondary j, id⟩) =
      renamed p.name prog.name := by
  obtain ⟨rest, tail, hdrop, -⟩ := drop_descriptor mem primary hprog hp
  rw [descriptorName, hdrop]
  exact cString_take (zero_notMem_renamed (zero_notMem_cString _) hfile) hlt

/-- The name of a predicate of a secondary is ended in its field if it is short enough. -/
theorem zero_mem_nameField_iff {prog : Program} {p : PredicateDef} {j id : ℕ}
    (hprog : secondaries[j]? = some prog) (hp : prog.predicates[id]? = some p)
    (hfile : 0 ∉ prog.name) :
    0 ∈ nameField (descriptor mem primary secondaries ⟨.secondary j, id⟩) ↔
      (renamed p.name prog.name).length < 32 := by
  obtain ⟨rest, tail, hdrop, hlen⟩ := drop_descriptor mem primary hprog hp
  rw [nameField, hdrop, List.take_append_of_le_length hlen.ge, List.take_of_length_le hlen.le]
  exact zero_mem_take_iff (zero_notMem_renamed (zero_notMem_cString _) hfile)

/-! ### Which predicates are written -/

/-- The predicates of the primary are written but for those that are imported. -/
theorem primary_mem_writtenPredicates {id : ℕ} :
    ⟨.primary, id⟩ ∈ writtenPredicates primary secondaries ↔
      ∃ p, primary.predicates[id]? = some p ∧ primary.imported p.name = false := by
  rw [writtenPredicates, mem_entries]
  simp only [List.mem_filter, List.mem_range, isImported, Bool.not_eq_true']
  constructor
  · rintro ⟨hlt, himported⟩
    rw [List.getElem?_eq_getElem hlt, Option.any_some] at himported
    exact ⟨_, List.getElem?_eq_getElem hlt, himported⟩
  · rintro ⟨p, hp, himported⟩
    refine ⟨(List.getElem?_eq_some_iff.mp hp).1, ?_⟩
    rwa [hp, Option.any_some]

/-- The predicates of a secondary are written but for those that all programs have. -/
theorem secondary_mem_writtenPredicates {j id : ℕ} :
    ⟨.secondary j, id⟩ ∈ writtenPredicates primary secondaries ↔
      commonPredicates ≤ id ∧ ∃ prog p, secondaries[j]? = some prog ∧
        prog.predicates[id]? = some p := by
  rw [writtenPredicates, mem_entries]
  simp only [List.mem_range'_1]
  constructor
  · rintro ⟨prog, hprog, hle, hlt⟩
    exact ⟨hle, prog, _, hprog, List.getElem?_eq_getElem (by omega)⟩
  · rintro ⟨hle, prog, p, hprog, hp⟩
    have hlt := (List.getElem?_eq_some_iff.mp hp).1
    exact ⟨prog, hprog, hle, by omega⟩

/-- A predicate of a secondary program that is not one of those that every program starts with. -/
def Added (secondaries : List Program) (prog : Program) (p : PredicateDef) : Prop :=
  prog ∈ secondaries ∧ p ∈ prog.predicates.drop commonPredicates

/-- A predicate that is added has an entry. -/
theorem Added.exists_entry {prog : Program} {p : PredicateDef} (h : Added secondaries prog p)
    (primary : Program) : ∃ j id, ⟨.secondary j, id⟩ ∈ writtenPredicates primary secondaries ∧
      secondaries[j]? = some prog ∧ prog.predicates[id]? = some p := by
  obtain ⟨j, hprog⟩ := List.mem_iff_getElem?.mp h.1
  obtain ⟨k, hp⟩ := List.mem_iff_getElem?.mp h.2
  rw [List.getElem?_drop] at hp
  exact ⟨j, commonPredicates + k,
    secondary_mem_writtenPredicates.mpr ⟨Nat.le_add_right _ _, prog, p, hprog, hp⟩, hprog, hp⟩

/-- An entry of a secondary is for a predicate that is added. -/
theorem added_of_mem {j id : ℕ} (h : ⟨.secondary j, id⟩ ∈ writtenPredicates primary secondaries) :
    ∃ prog p, Added secondaries prog p ∧ secondaries[j]? = some prog ∧
      prog.predicates[id]? = some p := by
  obtain ⟨hle, prog, p, hprog, hp⟩ := secondary_mem_writtenPredicates.mp h
  refine ⟨prog, p, ⟨List.mem_of_getElem? hprog, List.mem_iff_getElem?.mpr
    ⟨id - commonPredicates, ?_⟩⟩, hprog, hp⟩
  rwa [List.getElem?_drop, Nat.add_sub_cancel' hle]

/-! ### Readable and distinct names -/

/-- The names in the linked descriptors are read back as what they were meant to be, are terminated
inside of their fields, and are distinct. -/
structure NamesReadable (primary : Program) (secondaries : List Program) (l : Linked) : Prop where
  renamed : List.Forall₂ (fun e d => ∀ j, e.source = .secondary j →
    ∀ prog p, HasPredicate primary secondaries e prog p →
      descriptorName d = renamed p.name prog.name ∧ 0 ∈ nameField d)
    (writtenPredicates primary secondaries) l.descriptors
  nodup : (l.descriptors.map descriptorName).Nodup

/-- The new names fit into the name field with a zero, none of them is the name of a predicate that
the primary program keeps, and no dot can move from the name of a predicate to that of a file. -/
structure NamesFit (primary : Program) (secondaries : List Program) : Prop where
  short : ∀ prog p, Added secondaries prog p → p.name.length + prog.name.length + 1 < 32
  own : ∀ p ∈ primary.predicates, primary.imported p.name = false →
    ∀ prog q, Added secondaries prog q → p.name ≠ renamed q.name prog.name
  dots : ∀ prog p prog' p', Added secondaries prog p → Added secondaries prog' p' →
    ∀ t, p'.name = renamed p.name t → prog.name ≠ renamed t prog'.name

/-- The length of a name that is put together. -/
theorem length_renamed (name file : Text) :
    (renamed name file).length = name.length + file.length + 1 := by
  rw [renamed, List.length_append, List.length_cons, Nat.add_assoc]

/-- No dot moves. -/
theorem NamesFit.eq_of_renamed (h : NamesFit primary secondaries) {prog prog' : Program}
    {p p' : PredicateDef} (hp : Added secondaries prog p) (hp' : Added secondaries prog' p')
    (heq : renamed p.name prog.name = renamed p'.name prog'.name) :
    p.name = p'.name ∧ prog.name = prog'.name := by
  rcases renamed_eq_renamed heq with hparts | ⟨t, hname, hfile⟩ | ⟨t, hname, hfile⟩
  · exact hparts
  · exact absurd hfile (h.dots prog p prog' p' hp hp' t hname)
  · exact absurd hfile (h.dots prog' p' prog p hp' hp t hname)

/-- The places of entries that agree in a key that no two entries share. -/
private theorem eq_of_nodup_map {α β : Type} {f : α → β} {as : List α} (h : (as.map f).Nodup)
    {i i' : ℕ} {a a' : α} (ha : as[i]? = some a) (ha' : as[i']? = some a') (heq : f a = f a') :
    i = i' := by
  have hi : (as.map f)[i]? = some (f a) := by rw [List.getElem?_map, ha, Option.map_some]
  have hi' : (as.map f)[i']? = some (f a) := by rw [List.getElem?_map, ha', Option.map_some, heq]
  exact (List.getElem?_inj (List.getElem?_eq_some_iff.mp hi).1 h).mp (hi.trans hi'.symm)

/-- Entries with the same name are the same. -/
theorem NamesFit.entry_eq (h : NamesFit primary secondaries)
    (hfiles : (secondaries.map Program.name).Nodup)
    (hnames : ∀ prog ∈ primary :: secondaries, (prog.predicates.map PredicateDef.name).Nodup)
    {e e' : Entry} (he : e ∈ writtenPredicates primary secondaries)
    (he' : e' ∈ writtenPredicates primary secondaries)
    (heq : linkedName primary secondaries e = linkedName primary secondaries e') : e = e' := by
  obtain ⟨source, id⟩ := e
  obtain ⟨source', id'⟩ := e'
  cases source with
  | primary =>
    obtain ⟨p, hp, himported⟩ := primary_mem_writtenPredicates.mp he
    rw [linkedName_primary hp] at heq
    cases source' with
    | primary =>
      obtain ⟨p', hp', -⟩ := primary_mem_writtenPredicates.mp he'
      rw [linkedName_primary hp'] at heq
      rw [eq_of_nodup_map (hnames primary (List.mem_cons_self ..)) hp hp' heq]
    | secondary j' =>
      obtain ⟨prog', p', hadded, hprog', hp'⟩ := added_of_mem he'
      rw [linkedName_secondary hprog' hp'] at heq
      exact absurd heq (h.own p (List.mem_of_getElem? hp) himported prog' p' hadded)
  | secondary j =>
    obtain ⟨prog, p, hadded, hprog, hp⟩ := added_of_mem he
    rw [linkedName_secondary hprog hp] at heq
    cases source' with
    | primary =>
      obtain ⟨p', hp', himported⟩ := primary_mem_writtenPredicates.mp he'
      rw [linkedName_primary hp'] at heq
      exact absurd heq.symm (h.own p' (List.mem_of_getElem? hp') himported prog p hadded)
    | secondary j' =>
      obtain ⟨prog', p', hadded', hprog', hp'⟩ := added_of_mem he'
      rw [linkedName_secondary hprog' hp'] at heq
      obtain ⟨hname, hfile⟩ := h.eq_of_renamed hadded hadded' heq
      obtain rfl : j = j' := eq_of_nodup_map hfiles hprog hprog' hfile
      obtain rfl : prog = prog' := Option.some.inj (hprog.symm.trans hprog')
      rw [eq_of_nodup_map (hnames prog (List.mem_cons_of_mem _ hadded.1)) hp hp' hname]

/-- The name that is read back is the one that was meant. -/
theorem descriptorName_eq (hshort : ∀ prog p, Added secondaries prog p →
      p.name.length + prog.name.length + 1 < 32)
    (hfile : ∀ prog ∈ secondaries, 0 ∉ prog.name) {e : Entry}
    (he : e ∈ writtenPredicates primary secondaries) :
    descriptorName (descriptor mem primary secondaries e) = linkedName primary secondaries e := by
  obtain ⟨source, id⟩ := e
  cases source with
  | primary =>
    obtain ⟨p, hp, -⟩ := primary_mem_writtenPredicates.mp he
    rw [descriptorName_primary hp, linkedName_primary hp]
  | secondary j =>
    obtain ⟨prog, p, hadded, hprog, hp⟩ := added_of_mem he
    rw [linkedName_secondary hprog hp]
    refine descriptorName_secondary hprog hp (hfile prog hadded.1) ?_
    rw [length_renamed]
    exact hshort prog p hadded

/-- The names are readable and distinct exactly when they fit, for distinct files and for programs
whose predicates have distinct names. -/
theorem namesReadable_iff (mem : Memory) (table : List FuncDef) (primary : Program)
    (secondaries : List Program) (l : Linked)
    (h : linker mem table primary secondaries = .ok l)
    (hfile : ∀ prog ∈ secondaries, 0 ∉ prog.name)
    (hfiles : (secondaries.map Program.name).Nodup)
    (hnames : ∀ prog ∈ primary :: secondaries, (prog.predicates.map PredicateDef.name).Nodup) :
    NamesReadable primary secondaries l ↔ NamesFit primary secondaries := by
  have hdesc := (output_of_linker h).descriptors
  -- the names in the file are those of the descriptors
  have hnodup : (l.descriptors.map descriptorName).Nodup ↔
      ∀ e ∈ writtenPredicates primary secondaries, ∀ e' ∈ writtenPredicates primary secondaries,
        descriptorName (descriptor mem primary secondaries e) =
          descriptorName (descriptor mem primary secondaries e') → e = e' := by
    rw [hdesc, List.map_map]
    exact List.nodup_map_iff_inj_on nodup_writtenPredicates
  constructor
  · intro hreadable
    have hrenamed := hreadable.renamed
    rw [hdesc, List.forall₂_map_right_iff, List.forall₂_same] at hrenamed
    -- a name that is whole in the file is shorter than its field
    have hshort (prog : Program) (p : PredicateDef) (hadded : Added secondaries prog p) :
        p.name.length + prog.name.length + 1 < 32 := by
      obtain ⟨j, id, he, hprog, hp⟩ := hadded.exists_entry primary
      have hzero := (hrenamed _ he j rfl prog p ⟨hprog, hp⟩).2
      rw [← length_renamed]
      exact (zero_mem_nameField_iff hprog hp (hfile prog hadded.1)).mp hzero
    -- so that equal names of written predicates are equal in the file
    have hinj {e e' : Entry} (he : e ∈ writtenPredicates primary secondaries)
        (he' : e' ∈ writtenPredicates primary secondaries)
        (heq : linkedName primary secondaries e = linkedName primary secondaries e') : e = e' := by
      refine hnodup.mp hreadable.nodup e he e' he' ?_
      rw [descriptorName_eq hshort hfile he, descriptorName_eq hshort hfile he', heq]
    refine ⟨hshort, ?_, ?_⟩
    · intro p hp himported prog q hadded heq
      obtain ⟨id, hp⟩ := List.mem_iff_getElem?.mp hp
      obtain ⟨j, id', he', hprog, hq⟩ := hadded.exists_entry primary
      have he : ⟨.primary, id⟩ ∈ writtenPredicates primary secondaries :=
        primary_mem_writtenPredicates.mpr ⟨p, hp, himported⟩
      -- a predicate of the primary is none of a secondary
      have hsame := hinj he he' (by rw [linkedName_primary hp, linkedName_secondary hprog hq, heq])
      cases congrArg Entry.source hsame
    · intro prog p prog' p' hadded hadded' t hname hfile'
      obtain ⟨j, id, he, hprog, hp⟩ := hadded.exists_entry primary
      obtain ⟨j', id', he', hprog', hp'⟩ := hadded'.exists_entry primary
      have hsame := hinj he he' (by
        rw [linkedName_secondary hprog hp, linkedName_secondary hprog' hp', hname, hfile']
        simp only [renamed, List.append_assoc, List.cons_append])
      cases hsame
      obtain rfl := Option.some.inj (hprog.symm.trans hprog')
      obtain rfl := Option.some.inj (hp.symm.trans hp')
      have hlen := congrArg List.length hname
      rw [length_renamed] at hlen
      omega
  · intro hfit
    refine ⟨?_, hnodup.mpr fun e he e' he' heq => ?_⟩
    · rw [hdesc, List.forall₂_map_right_iff, List.forall₂_same]
      rintro ⟨source, id⟩ he j rfl prog p ⟨hprog, hp⟩
      obtain ⟨prog', p', hadded, hprog', hp'⟩ := added_of_mem he
      obtain rfl : prog = prog' := Option.some.inj (hprog.symm.trans hprog')
      obtain rfl : p = p' := Option.some.inj (hp.symm.trans hp')
      refine ⟨(descriptorName_eq hfit.short hfile he).trans (linkedName_secondary hprog hp), ?_⟩
      rw [zero_mem_nameField_iff hprog hp (hfile prog hadded.1), length_renamed]
      exact hfit.short prog p hadded
    · rw [descriptorName_eq hfit.short hfile he, descriptorName_eq hfit.short hfile he'] at heq
      exact hfit.entry_eq hfiles hnames he he' heq

/-! ### Samples -/

/-- A program whose predicates have distinct names. -/
def namedSample (file : Text) : Program :=
  { sampleProgram file [0x70] length_sampleName noCode with
    predicates := (List.range 9).map fun i => samplePredicate [.ofNat (0x61 + i)] (by simp)
    numPredicates := by simp
    rulePredicates := by simp [sampleProgram, sampleRule] }

theorem namesReadable_iff_sample : ∃ l,
    linker ⟨fun _ _ => 0, fun _ _ => 0, fun _ _ _ => 0⟩ [] (namedSample [0x61])
      [namedSample [0x62]] = .ok l ∧
    (NamesReadable (namedSample [0x61]) [namedSample [0x62]] l ↔
      NamesFit (namedSample [0x61]) [namedSample [0x62]]) :=
  ⟨_, rfl, namesReadable_iff _ [] _ [namedSample [0x62]] _ rfl (by decide +kernel)
    (by decide +kernel) (by decide +kernel)⟩

/-- The name of a file that is 30 bytes long does not fit. -/
theorem not_namesReadable : ∃ file l,
    0 ∉ file ∧ (∀ prog ∈ [namedSample [0x61], namedSample file],
      (prog.predicates.map PredicateDef.name).Nodup) ∧
    linker ⟨fun _ _ => 0, fun _ _ => 0, fun _ _ _ => 0⟩ [] (namedSample [0x61])
      [namedSample file] = .ok l ∧
    ¬ NamesReadable (namedSample [0x61]) [namedSample file] l := by
  obtain ⟨l, hl⟩ : ∃ l, linker ⟨fun _ _ => 0, fun _ _ => 0, fun _ _ _ => 0⟩ []
    (namedSample [0x61]) [namedSample (List.replicate 30 0x62)] = .ok l := ⟨_, rfl⟩
  refine ⟨List.replicate 30 0x62, l, by decide +kernel, by decide +kernel, hl, fun h => ?_⟩
  have hrenamed := h.renamed
  rw [(output_of_linker hl).descriptors, List.forall₂_map_right_iff, List.forall₂_same] at hrenamed
  have hzero := (hrenamed ⟨.secondary 0, 8⟩ (by decide +kernel) 0 rfl _ _ ⟨rfl, rfl⟩).2
  exact absurd hzero (by decide +kernel)

end Meld.Linker
