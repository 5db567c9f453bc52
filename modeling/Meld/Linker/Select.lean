import Meld.Linker.PredicateRefs

/-!
# The tables of `SELECT_INSTR`

A `SELECT_INSTR` jumps to the code of a node through a table with an entry for each node id, as many
as its program had nodes. The entries of several nodes may lead to one block, and need not be in the
order of the blocks. The machine looks up every node whose id is at most the largest id of the nodes
in the file; the linker takes the nodes of the program that has the most of them and leaves the tables
as they are. `selectsCovered_iff` says for which programs all lookups stay in the tables.
-/

namespace Meld.Linker

open Lib Lib.Bytes Vm Vm.Bytecode Traversal

/-! ### Execution -/

/-- `execute_select` in the byte-code, for the node with the id. -/
def executeSelect (code : List UInt8) (pc id staticMaxId : ℕ) : ℕ :=
  let size := ofLe ((code.drop (pc + 1)).take 4)
  if staticMaxId < id then pc + size
  else
    let hashSize := ofLe ((code.drop (pc + 5)).take 4)
    let hashed := ofLe ((code.drop (pc + 9 + 4 * id)).take 4)
    if hashed = 0 then pc + size else pc + 9 + hashSize * 4 + hashed - 1

/-- `static_max_id`, of all nodes in the file. -/
def staticMaxId (nodes : List (UInt32 × UInt32)) : ℕ :=
  nodes.foldl (fun id node => max id node.1.toNat) 0

/-- A `SELECT_INSTR`: its number among the instructions, its table and the instructions of its
blocks. -/
structure Select where
  place : ℕ
  table : List (Option ℕ)
  groups : List (List Head)

mutual

/-- The `SELECT_INSTR`s of code whose first instruction has the number. -/
def Traversal.Tree.selects : Tree → ℕ → List Select
  | .done, _ => []
  | .instr _ rest, k => rest.selects (k + 1)
  | .ifReg _ body rest, k | .iter _ _ _ _ body rest, k =>
    body.selects (k + 1) ++ rest.selects (k + 1 + body.heads.length)
  | .resetLinear body rest, k =>
    body.selects (k + 1) ++ rest.selects (k + 1 + body.heads.length + 1)
  | .select table blocks rest, k =>
    ⟨k, table, blocks.groups⟩ ::
      (blocks.selects (k + 1) ++ rest.selects (k + 1 + blocks.groups.flatten.length))

def Traversal.Blocks.selects : Blocks → ℕ → List Select
  | .nil, _ => []
  | .cons body _ blocks, k => body.selects k ++ blocks.selects (k + body.heads.length + 1)

end

/-- The instructions stand at the position, with whatever ids they have. -/
def Leads (code : List UInt8) (pc : ℕ) (heads : List Head) : Prop :=
  ∃ parts, List.Forall₂ Shape heads parts ∧ parts.flatten <+: code.drop pc

/-- The table of the `SELECT_INSTR` has an entry for the node, and execution goes on at the block of
the node, or behind the `SELECT_INSTR` if there is none. -/
def SelectCovers (code : List UInt8) (heads : List Head) (s : Select) (staticMaxId id : ℕ) : Prop :=
  ∃ b, s.table[id]? = some b ∧
    match b with
    | none => executeSelect code (address heads s.place) id staticMaxId =
        address heads (s.place + 1 + s.groups.flatten.length)
    | some b => executeSelect code (address heads s.place) id staticMaxId =
        address heads (s.place + 1 + (s.groups.take b).flatten.length) ∧
      ∃ group, s.groups[b]? = some group ∧
        Leads code (executeSelect code (address heads s.place) id staticMaxId) group

/-- All tables in the written code cover the nodes. -/
def SelectsCover (staticMaxId : ℕ) (c : Code) (code : List UInt8) : Prop :=
  ∀ s ∈ c.tree.selects 0, ∀ id ≤ staticMaxId, SelectCovers code c.heads s staticMaxId id

/-- All tables in the output cover its nodes. -/
structure SelectsCovered (primary : Program) (secondaries : List Program) (l : Linked) : Prop where
  code : EachCode primary secondaries (fun _ _ => SelectsCover (staticMaxId l.nodes)) l
  constCode : SelectsCover (staticMaxId l.nodes) primary.constCode l.constCode

/-! ### The layout -/

variable {L heads : List Head} {s : Select} {code : List UInt8} {k m : ℕ}

/-- The `SELECT_INSTR` stands at its place, with its blocks behind it, and its table names some of
them. -/
structure Placed (L : List Head) (s : Select) : Prop where
  sub : Head.select (.ofNat (9 + 4 * s.table.length + size s.groups.flatten))
    (s.table.map (entry s.groups)) :: s.groups.flatten <+: L.drop s.place
  tabled : ∀ b, some b ∈ s.table → b < s.groups.length

mutual

theorem Traversal.Tree.placed_of_mem : (c : Tree) → (k : ℕ) → c.Tabled → c.heads <+: L.drop k →
    ∀ s ∈ c.selects k, Placed L s
  | .done, k, htab, hsub, s, hs => by cases hs
  | .instr i rest, k, htab, hsub, s, hs => rest.placed_of_mem _ htab (prefix_cons hsub).2 s hs
  | .ifReg reg body rest, k, htab, hsub, s, hs => by
    obtain ⟨hbody, hrest⟩ := prefix_append (prefix_cons hsub).2
    rcases List.mem_append.mp hs with hs | hs
    · exact body.placed_of_mem _ htab.1 hbody s hs
    · exact rest.placed_of_mem _ htab.2 hrest s hs
  | .iter pred options argument ms body rest, k, htab, hsub, s, hs => by
    obtain ⟨hbody, hrest⟩ := prefix_append (prefix_cons hsub).2
    rcases List.mem_append.mp hs with hs | hs
    · exact body.placed_of_mem _ htab.1 hbody s hs
    · exact rest.placed_of_mem _ htab.2 hrest s hs
  | .resetLinear body rest, k, htab, hsub, s, hs => by
    obtain ⟨hbody, hend⟩ := prefix_append (prefix_cons hsub).2
    rcases List.mem_append.mp hs with hs | hs
    · exact body.placed_of_mem _ htab.1 hbody s hs
    · exact rest.placed_of_mem _ htab.2 (prefix_cons hend).2 s hs
  | .select table blocks rest, k, htab, hsub, s, hs => by
    obtain ⟨hblocks, hrest⟩ := prefix_append (prefix_cons hsub).2
    rcases List.mem_cons.mp hs with rfl | hs
    · exact ⟨(prefix_append (l := _ :: blocks.groups.flatten) hsub).1, htab.1⟩
    · rcases List.mem_append.mp hs with hs | hs
      · exact blocks.placed_of_mem _ htab.2.1 hblocks s hs
      · exact rest.placed_of_mem _ htab.2.2 hrest s hs

theorem Traversal.Blocks.placed_of_mem : (blocks : Blocks) → (k : ℕ) → blocks.Tabled →
    blocks.groups.flatten <+: L.drop k → ∀ s ∈ blocks.selects k, Placed L s
  | .nil, k, htab, hsub, s, hs => by cases hs
  | .cons body jump blocks, k, htab, hsub, s, hs => by
    simp only [Blocks.groups, List.flatten_cons] at hsub
    obtain ⟨hgroup, hrest⟩ := prefix_append hsub
    rw [List.length_append, List.length_singleton, ← Nat.add_assoc] at hrest
    rcases List.mem_append.mp hs with hs | hs
    · exact body.placed_of_mem _ htab.1 (prefix_append hgroup).1 s hs
    · exact blocks.placed_of_mem _ htab.2 hrest s hs

end

/-- Code of a shape has the instructions where they are in the list. -/
theorem Traversal.Shaped.leads (hcode : Shaped L code) (hsub : heads <+: L.drop k) :
    Leads code (address L k) heads := by
  obtain ⟨parts, hparts, rfl⟩ := hcode
  refine ⟨(parts.drop k).take heads.length, ?_, ?_⟩
  · have hdrop := List.forall₂_take heads.length (List.forall₂_drop k hparts)
    rwa [← List.prefix_iff_eq_take.mp hsub] at hdrop
  · have hdrop : parts.flatten.drop (address L k) = (parts.drop k).flatten := by
      conv_lhs => rw [← List.take_append_drop k parts, List.flatten_append]
      rw [← length_take_parts hparts k, List.drop_left]
    rw [hdrop]
    conv_rhs => rw [← List.take_append_drop heads.length (parts.drop k), List.flatten_append]
    exact List.prefix_append _ _

/-! ### Lookups -/

theorem ofLe_of_numGet {p : List UInt8} {off n : ℕ} (h : numGet 4 p off = .ok n) :
    ofLe ((p.drop off).take 4) = n := by
  rw [numGet] at h
  split_ifs at h
  exact Except.ok.inj h

/-- A lookup reads the words of the instruction. -/
theorem executeSelect_eq {size : UInt32} {table : List UInt32} {id : ℕ} {e : UInt32} (hL : Lays L)
    (hcode : Shaped L code) (hk : L[k]? = some (.select size table)) (hid : id ≤ m)
    (he : table[id]? = some e) : executeSelect code (address L k) id m =
      if e = 0 then address L k + size.toNat
      else address L k + 9 + table.length * 4 + e.toNat - 1 := by
  obtain ⟨bs, post, hs, hdrop⟩ := hcode.drop hk
  rw [hs.eq (by simp [Named, opcode]) (by simp [opcode])] at hdrop
  obtain ⟨hsize, hlen, hentry⟩ := @numGet_select size _ (hL.fits_of_getElem? hk) post
  have hread : ∀ i, code.drop (address L k + i) = ((Head.select size table).bytes ++ post).drop i :=
    fun i => by rw [← List.drop_drop, hdrop]
  have hzero : e.toNat = 0 ↔ e = 0 := UInt32.toNat_inj (b := 0)
  rw [executeSelect, if_neg (not_lt.mpr hid), Nat.add_assoc (address L k), hread, hread, hread,
    ofLe_of_numGet hsize, ofLe_of_numGet hlen, ofLe_of_numGet (hentry id e he)]
  simp only [hzero]

/-- A lookup in the table leads to the block of the node, or behind the `SELECT_INSTR`. -/
theorem selectCovers_of_lt {id : ℕ} (hL : Lays L) (hcode : Shaped L code) (hs : Placed L s)
    (hid : id < s.table.length) (hle : id ≤ m) : SelectCovers code L s m id := by
  obtain ⟨b, hb⟩ : ∃ b, s.table[id]? = some b := ⟨_, List.getElem?_eq_getElem hid⟩
  obtain ⟨hget, hblocks⟩ := prefix_cons hs.sub
  have hlen : ∀ x, (Head.select x (s.table.map (entry s.groups))).bytes.length =
      9 + 4 * s.table.length := fun x => by rw [length_select, List.length_map]
  have he : (s.table.map (entry s.groups))[id]? = some (entry s.groups b) := by
    rw [List.getElem?_map, hb, Option.map_some]
  have hlook := executeSelect_eq hL hcode hget hle he
  rw [List.length_map] at hlook
  refine ⟨b, hb, ?_⟩
  cases b with
  | none =>
    rw [if_pos (show entry s.groups none = 0 from rfl)] at hlook
    rw [hlook]
    exact (address_jump hL hs.sub (by rw [hlen])).symm
  | some b =>
    have hlt := hs.tabled b (List.mem_of_getElem? hb)
    have hentry := toNat_jump (x := size (s.groups.take b).flatten + 1) hL hs.sub (by
      have := size_take_le s.groups b
      rw [hlen]
      omega)
    have hne : entry s.groups (some b) ≠ 0 := fun hzero => by
      have hword := congrArg UInt32.toNat hzero
      rw [entry, hentry] at hword
      cases hword
    -- the blocks before that of the node
    have hsplit : s.groups.flatten =
        (s.groups.take b).flatten ++ (s.groups[b] ++ (s.groups.drop (b + 1)).flatten) := by
      conv_lhs => rw [← List.take_append_drop b s.groups, List.drop_eq_getElem_cons hlt]
      rw [List.flatten_append, List.flatten_cons]
    rw [hsplit] at hblocks
    obtain ⟨hbefore, hgroup⟩ := prefix_append hblocks
    have hat : executeSelect code (address L s.place) id m =
        address L (s.place + 1 + (s.groups.take b).flatten.length) := by
      have hnext := address_succ hget
      rw [hlen] at hnext
      rw [hlook, if_neg hne, entry, hentry, address_add hbefore, hnext]
      omega
    refine ⟨hat, s.groups[b], List.getElem?_eq_getElem hlt, ?_⟩
    rw [hat]
    exact hcode.leads (prefix_append hgroup).1

/-- The tables of code cover the nodes when they have enough entries. -/
theorem selectsCover_iff {c : Code} (hcode : Shaped c.heads code) :
    SelectsCover m c code ↔ ∀ s ∈ c.tree.selects 0, m < s.table.length := by
  constructor
  · intro h s hs
    obtain ⟨b, hb, -⟩ := h s hs m le_rfl
    exact (List.getElem?_eq_some_iff.mp hb).1
  · intro h s hs id hid
    exact selectCovers_of_lt c.lays hcode (c.tree.placed_of_mem 0 c.tabled (List.prefix_rfl) s hs)
      (hid.trans_lt (h s hs)) hid

/-! ### The output -/

/-- The `SELECT_INSTR`s of the code have entries for all nodes of the output. -/
def SelectsSized (primary : Program) (secondaries : List Program) (c : Code) : Prop :=
  ∀ s ∈ c.tree.selects 0, staticMaxId (linkedNodes primary secondaries) < s.table.length

/-- Those of all code that is written have. -/
structure AllSelectsSized (primary : Program) (secondaries : List Program) : Prop where
  code : EachWritten primary secondaries (fun _ _ => SelectsSized primary secondaries)
    fun _ _ => SelectsSized primary secondaries
  constCode : SelectsSized primary secondaries primary.constCode

variable {mem : Memory} {table : List FuncDef} {primary : Program} {secondaries : List Program}
  {l : Linked}

/-- What covers the nodes in the code of predicates, rules and functions. -/
theorem eachCovered_iff (h : Output mem table primary secondaries l) :
    EachCode primary secondaries (fun _ _ => SelectsCover (staticMaxId l.nodes)) l ↔
      EachWritten primary secondaries (fun _ _ => SelectsSized primary secondaries)
        fun _ _ => SelectsSized primary secondaries := by
  rw [h.nodes]
  exact eachCode_iff (R := fun _ _ => SelectsCover _) h
    (fun _ hprint => selectsCover_iff (shaped_of_printCode hprint))
    fun _ => selectsCover_iff (shaped_bytes _)

/-- Every `SELECT_INSTR` in the output has an entry for every node and leads to the code of the node
exactly when all tables of the programs have more entries than the largest id of a node. -/
theorem selectsCovered_iff (mem : Memory) (table : List FuncDef) (primary : Program)
    (secondaries : List Program) (l : Linked) (h : linker mem table primary secondaries = .ok l) :
    SelectsCovered primary secondaries l ↔ AllSelectsSized primary secondaries := by
  have hout := output_of_linker h
  have hcode := eachCovered_iff hout
  have hconst : SelectsCover (staticMaxId (linkedNodes primary secondaries)) primary.constCode
      primary.constCode.bytes ↔ SelectsSized primary secondaries primary.constCode :=
    selectsCover_iff (shaped_bytes _)
  rw [← hout.constCode] at hconst
  constructor
  · intro hcovered
    exact ⟨hcode.mp hcovered.code, hconst.mp (hout.nodes ▸ hcovered.constCode)⟩
  · intro hsized
    exact ⟨hcode.mpr hsized.code, hout.nodes ▸ hconst.mpr hsized.constCode⟩

/-! ### Samples -/

/-- A program with one node, whose second rule has the code. -/
def selectingSample (code : Code) : Program :=
  { sampleProgram [0x61] [0x70] length_sampleName code with
    nodes := [(0, 0)]
    numNodes := by decide
    imports := [⟨[0x70], [0x70], [0x62]⟩]
    imports_nil := fun h => absurd h (Nat.lt_irrefl 9)
    numImports := length_sampleImports
    importTexts := length_sampleImportTexts }

/-- Code for one node. -/
def nodeCode : Code where
  tree := .select [some 0] (.cons .done 5 .nil) .done
  tabled := by simp [Tree.Tabled, Blocks.Tabled, Blocks.groups]
  fits := by simp [Tree.heads, Blocks.groups, Head.Fits]
  size := by simp [Tree.bytes, Tree.heads, Blocks.groups, Head.bytes]

/-- The program `b` with the nodes. -/
def nodesSample (nodes : List (UInt32 × UInt32)) (h : nodes.length < 2 ^ 32) : Program :=
  { exportingSample (allocating 8) with
    nodes := nodes
    numNodes := h }

/-- A table in which two nodes share a block, and two nodes in the output. -/
theorem selectsCovered_iff_sample : ∃ l,
    linker zeros [] (selectingSample (sharedCode 7)) [nodesSample [(0, 0), (1, 1)] (by decide)] =
        .ok l ∧
      (SelectsCovered (selectingSample (sharedCode 7))
          [nodesSample [(0, 0), (1, 1)] (by decide)] l ↔
        AllSelectsSized (selectingSample (sharedCode 7))
          [nodesSample [(0, 0), (1, 1)] (by decide)]) :=
  ⟨_, rfl, selectsCovered_iff zeros [] (selectingSample (sharedCode 7))
    [nodesSample [(0, 0), (1, 1)] (by decide)] _ rfl⟩

/-- The output has the two nodes of the secondary program, and the primary program has a table with
one entry. -/
theorem not_selectsCovered : ∃ l,
    linker zeros [] (selectingSample nodeCode) [nodesSample [(0, 0), (1, 1)] (by decide)] = .ok l ∧
      ¬ SelectsCovered (selectingSample nodeCode) [nodesSample [(0, 0), (1, 1)] (by decide)] l := by
  refine ⟨_, rfl, fun h => ?_⟩
  have hsized := ((eachCovered_iff (output_of_linker rfl)).mp h.code).rules ⟨.primary, 1⟩
    (by decide +kernel) (selectingSample nodeCode) _ ⟨rfl, rfl⟩ _ List.mem_cons_self
  exact absurd hsized (by decide +kernel)

end Meld.Linker
