import Fiss.Schemes.Codec
import Fiss.Schemes.OrdMap
import Fiss.Schemes.OrdSet
import Fiss.Schemes.Runs

/-! What a transaction sends to its partitions: the commands `TxnCommand::GetAllCmds` makes of its
    pieces, and the workspaces of these commands as messages (`txn_chopper.cc`, without the branch
    for TAPIR, and `marshal-value.cc`).

    A value of an input is there or is still to come. The sender writes the key of every input; a
    value that is missing it replaces by a sentinel, and flags tell the reader which values it has
    got. The stream is the one of the rrr library, a queue of bytes with encoders that their decoders
    undo (`Encoders`). The partition of a piece comes from a virtual function of the benchmark. -/

namespace Fiss.Chopper
open List OrdSet OrdMap

/-- `varid_t`, an `int32_t`. -/
abbrev VarId := {x : ℤ // -2147483648 ≤ x ∧ x < 2147483648}

/-- The kind and the content of a `Value`. -/
inductive Datum
  | unknown
  | i32 (v : BitVec 32)
  | i64 (v : BitVec 64)
  | double (bits : BitVec 64)
  | str (s : List UInt8)
  deriving DecidableEq, Inhabited

structure Value where
  ver : UInt64 := 0
  datum : Datum := .unknown
  deriving DecidableEq, Inhabited

def emptyValue : Datum := .i32 0xFFFFEEFF#32

/-- A workspace; of `values` what the map holds that is shared. -/
structure TxnWorkspace where
  keys : OrdSet VarId := ∅
  values : OrdMap VarId Value := .empty
  inputVarReady : OrdMap VarId (BitVec 32) := .empty
  pieceInputReady : BitVec 32 := 0

/-! ### Messages -/

/-- The encoders of `Marshal` that a workspace goes through. -/
structure Encoders where
  u64 : Codec UInt64
  i32 : Codec (BitVec 32)
  i64 : Codec (BitVec 64)
  double : Codec (BitVec 64)
  str : Codec (List UInt8)
  key : Codec VarId
  flags : Codec (OrdMap VarId (BitVec 32))

section Messages
variable (E : Encoders)

/-- `operator<<` of a `Value`. -/
def Value.put (v : Value) : Option (List UInt8) :=
  match v.datum with
  | .unknown => none
  | .i32 x => some (E.u64.put v.ver ++ (E.i32.put 0 ++ E.i32.put x))
  | .i64 x => some (E.u64.put v.ver ++ (E.i32.put 1 ++ E.i64.put x))
  | .double x => some (E.u64.put v.ver ++ (E.i32.put 2 ++ E.double.put x))
  | .str x => some (E.u64.put v.ver ++ (E.i32.put 3 ++ E.str.put x))

/-- `operator>>` into a new `Value`. -/
def Value.get : Reader Value := fun m => do
  let (ver, m) ← E.u64.get m
  let (k, m) ← E.i32.get m
  if k = 0 then (E.i32.get m).map fun r => (⟨ver, .i32 r.1⟩, r.2)
  else if k = 1 then (E.i64.get m).map fun r => (⟨ver, .i64 r.1⟩, r.2)
  else if k = 2 then (E.double.get m).map fun r => (⟨ver, .double r.1⟩, r.2)
  else if k = 3 then (E.str.get m).map fun r => (⟨ver, .str r.1⟩, r.2)
  else some (⟨ver, .unknown⟩, m)

theorem Value.get_put {v : Value} (h : v.datum ≠ .unknown) :
    ∃ bytes, v.put E = some bytes ∧ ∀ rest, Value.get E (bytes ++ rest) = some (v, rest) := by
  obtain ⟨ver, datum⟩ := v
  cases datum with
  | unknown => exact absurd rfl h
  | _ => exact ⟨_, rfl, fun rest => by simp [Value.get, Codec.get_put]⟩

namespace TxnWorkspace
variable (ws : TxnWorkspace)

/-- The value written for a key. -/
def written (k : VarId) : Option Value :=
  if ws.pieceInputReady = 0#32 then
    (ws.inputVarReady.find k).bind fun ready =>
      if ready = 1#32 then ws.values.find k else some { datum := emptyValue }
  else ws.values.find k

/-- What the loop of `operator<<` writes for a key. -/
def putKey (k : VarId) : Option (List UInt8) :=
  ((ws.written k).bind fun v => v.put E).map fun bytes => E.key.put k ++ bytes

/-- `operator<<`. -/
def put : Option (List UInt8) :=
  (ws.keys.elems.mapM (ws.putKey E)).map fun body =>
    E.u64.put (.ofNat ws.keys.elems.length) ++ (E.i32.put ws.pieceInputReady ++
      (E.flags.put ws.inputVarReady ++ body.flatten))

/-- What the loop of `operator>>` reads. -/
def getKey : Reader (VarId × Value) := fun m => do
  let (k, m) ← E.key.get m
  let (v, m) ← Value.get E m
  some ((k, v), m)

/-- What it does with it. Assigning a `Value` leaves the version of the old one; looking up a flag
    that is not there enters it. -/
def take (ws : TxnWorkspace) (e : VarId × Value) : Option TxnWorkspace :=
  let v : Value := { (ws.values.find e.1).getD {} with datum := e.2.datum }
  let ws := { ws with keys := ws.keys.insert e.1, values := ws.values.set e.1 v }
  if ws.pieceInputReady = 0#32 then
    match ws.inputVarReady.find e.1 with
    | none => if v.datum = emptyValue then
        some { ws with inputVarReady := ws.inputVarReady.set e.1 0#32 } else none
    | some flag => if flag = 0#32 ∧ v.datum ≠ emptyValue then none else some ws
  else some ws

/-- `operator>>`. -/
def get : Reader TxnWorkspace := fun m => do
  let (sz, m) ← E.u64.get m
  let (ready, m) ← E.i32.get m
  let (flags, m) ← E.flags.get m
  Codec.readLoop (getKey E) take sz.toNat
    { ws with pieceInputReady := ready, inputVarReady := flags } m

/-- The value of the variable is in the workspace, by its flags. -/
def Ready (k : VarId) : Prop := ws.pieceInputReady ≠ 0#32 ∨ ws.inputVarReady.find k = some 1#32

instance (k : VarId) : Decidable (ws.Ready k) := inferInstanceAs (Decidable (_ ∨ _))

/-- The flags tell of every input whether its value is there. -/
structure Flagged : Prop where
  ready : ∀ k ∈ ws.keys, ws.Ready k → ∃ v, ws.values.find k = some v ∧ v.datum ≠ .unknown
  unready : ∀ k ∈ ws.keys, ¬ ws.Ready k → ws.inputVarReady.find k = some 0#32

/-- What a reader gets: the keys, the flags, the values that are ready, and the sentinel for the
    others. -/
structure Received (ws' : TxnWorkspace) : Prop where
  keys : ws'.keys = ws.keys
  pieceInputReady : ws'.pieceInputReady = ws.pieceInputReady
  inputVarReady : ws'.inputVarReady = ws.inputVarReady
  values : ∀ k ∈ ws.keys, (ws'.values.find k).map Value.datum =
    if ws.Ready k then (ws.values.find k).map Value.datum else some emptyValue

/-- A workspace can be sent and is read as it should. -/
def RoundTrip : Prop := ∃ bytes, ws.put E = some bytes ∧
  ∀ rest, ∃ ws', get E {} (bytes ++ rest) = some (ws', rest) ∧ ws.Received ws'

variable {ws}

theorem Flagged.written (h : ws.Flagged) {k : VarId} (hk : k ∈ ws.keys) :
    ∃ v, ws.written k = some v ∧ v.datum ≠ .unknown ∧
      some v.datum = if ws.Ready k then (ws.values.find k).map Value.datum else some emptyValue := by
  by_cases hr : ws.Ready k
  · obtain ⟨v, hv, hd⟩ := h.ready k hk hr
    refine ⟨v, ?_, hd, by simp [hr, hv]⟩
    rcases hr with hr | hr <;> simp [TxnWorkspace.written, hr, hv]
  · refine ⟨{ datum := emptyValue }, ?_, by simp [emptyValue], by simp [hr]⟩
    have hzero : ws.pieceInputReady = 0#32 := not_not.mp (not_or.mp hr).1
    simp [TxnWorkspace.written, hzero, h.unready k hk hr]

theorem foldlM_take (l : List (VarId × Value)) (ws : TxnWorkspace) (hl : (l.map Prod.fst).Nodup)
    (h : ws.pieceInputReady = 0#32 → ∀ e ∈ l, ∃ flag, ws.inputVarReady.find e.1 = some flag ∧
      (flag = 0#32 → e.2.datum = emptyValue)) :
    ∃ ws', l.foldlM take ws = some ws' ∧ (∀ k, k ∈ ws'.keys ↔ k ∈ ws.keys ∨ k ∈ l.map Prod.fst) ∧
      ws'.pieceInputReady = ws.pieceInputReady ∧ ws'.inputVarReady = ws.inputVarReady ∧
      (∀ k, k ∉ l.map Prod.fst → ws'.values.find k = ws.values.find k) ∧
      ∀ e ∈ l, (ws'.values.find e.1).map Value.datum = some e.2.datum := by
  induction l generalizing ws with
  | nil => exact ⟨ws, rfl, by simp⟩
  | cons e l ih =>
    rw [map_cons, nodup_cons] at hl
    obtain ⟨v, hv, htake⟩ : ∃ v : Value, v.datum = e.2.datum ∧ take ws e = some
        { ws with keys := ws.keys.insert e.1, values := ws.values.set e.1 v } := by
      refine ⟨{ (ws.values.find e.1).getD {} with datum := e.2.datum }, rfl, ?_⟩
      by_cases hr : ws.pieceInputReady = 0#32
      · obtain ⟨flag, hflag, hempty⟩ := h hr e mem_cons_self
        simpa [take, hr, hflag] using hempty
      · simp [take, hr]
    obtain ⟨ws', hrun, hkeys, hready, hflags, hothers, hvalues⟩ :=
      ih { ws with keys := ws.keys.insert e.1, values := ws.values.set e.1 v } hl.2
        fun hr e' he' => h hr e' (mem_cons_of_mem e he')
    refine ⟨ws', by simp [htake, hrun], fun k => ?_, hready, hflags, fun k hk => ?_, ?_⟩
    · rw [hkeys, mem_insert, map_cons, mem_cons, or_assoc, or_left_comm]
    · rw [map_cons, mem_cons, not_or] at hk
      rw [hothers k hk.2, find_set_ne _ hk.1]
    · refine forall_mem_cons.mpr ⟨?_, hvalues⟩
      rw [hothers _ hl.1, find_set_self, Option.map_some, hv]

theorem length_lt (s : OrdSet VarId) : s.elems.length < 2 ^ 64 := by
  have hnodup : (s.elems.map Subtype.val).Nodup :=
    List.Nodup.map Subtype.val_injective (s.sorted.imp fun h => h.ne)
  have hsub : (s.elems.map Subtype.val).toFinset ⊆ Finset.Ico (-2147483648) 2147483648 := by
    intro x hx
    obtain ⟨y, -, rfl⟩ := mem_map.mp (mem_toFinset.mp hx)
    exact Finset.mem_Ico.mpr y.2
  have hcard := Finset.card_le_card hsub
  rw [toFinset_card_of_nodup hnodup, length_map, Int.card_Ico] at hcard
  omega

/-- A workspace whose flags are right arrives as it should. -/
theorem Flagged.roundTrip (h : ws.Flagged) : ws.RoundTrip E := by
  have hput : ∀ k ∈ ws.keys, ∃ v bytes, ws.putKey E k = some bytes ∧
      (∀ rest, getKey E (bytes ++ rest) = some ((k, v), rest)) ∧
      some v.datum = if ws.Ready k then (ws.values.find k).map Value.datum else some emptyValue := by
    intro k hk
    obtain ⟨v, hv, hd, hdatum⟩ := h.written hk
    obtain ⟨bytes, hbytes, hget⟩ := Value.get_put E hd
    refine ⟨v, E.key.put k ++ bytes, by simp [putKey, hv, hbytes], fun rest => ?_, hdatum⟩
    simp [getKey, Codec.get_put, hget]
  choose! v bytes hbytes hget hdatum using hput
  refine ⟨_, by rw [put, Codec.mapM_eq hbytes, Option.map_some], fun rest => ?_⟩
  have hfst : (ws.keys.elems.map fun k => (k, v k)).map Prod.fst = ws.keys.elems := by
    simp [Function.comp_def]
  obtain ⟨ws', hrun, hkeys, hready, hflags, -, hvalues⟩ :=
    foldlM_take (ws.keys.elems.map fun k => (k, v k))
      { pieceInputReady := ws.pieceInputReady, inputVarReady := ws.inputVarReady }
      (by rw [hfst]; exact ws.keys.sorted.imp fun h => h.ne) fun hr e he => by
        obtain ⟨k, hk, rfl⟩ := mem_map.mp he
        by_cases hk' : ws.Ready k
        · exact ⟨1, hk'.resolve_left fun h => h hr, fun h => by cases h⟩
        · refine ⟨0, h.unready k hk hk', fun _ => Option.some.inj ?_⟩
          rw [hdatum k hk, if_neg hk']
  refine ⟨ws', ?_, ext fun k => ?_, hready, hflags, fun k hk => ?_⟩
  · simp only [get, append_assoc, Codec.get_put, Option.bind_eq_bind, Option.bind_some]
    rw [UInt64.toNat_ofNat_of_lt' (length_lt ws.keys), ← flatMap_def]
    have hitems : ∀ e ∈ ws.keys.elems.map (fun k => (k, v k)), ∀ rest,
        getKey E (bytes e.1 ++ rest) = some (e, rest) := by
      intro e he
      obtain ⟨k, hk, rfl⟩ := mem_map.mp he
      exact hget k hk
    have hloop := Codec.readLoop_put hitems (f := take)
      { pieceInputReady := ws.pieceInputReady, inputVarReady := ws.inputVarReady } rest
    rw [hrun, length_map, flatMap_map] at hloop
    exact hloop
  · rw [hkeys, hfst]
    simp [mem_elems]
  · rw [← hdatum k hk]
    exact hvalues _ (mem_map_of_mem hk)

end TxnWorkspace

end Messages

/-! ### Commands -/

inductive CommandStatus
  | WAITING
  | DISPATCHABLE
  | DISPATCHED
  | OUTPUT_READY
  | INIT
  deriving DecidableEq

structure SimpleCommand where
  innId : ℕ
  partitionId : ℕ
  type : ℕ
  rootId : ℕ
  rootType : ℕ
  input : TxnWorkspace
  outputSize : ℤ
  timestamp : ℕ
  waitingVarParMap : OrdMap VarId (List ℕ) := .empty

/-- The command with the partitions that wait. -/
def SimpleCommand.announce (waiting : OrdMap VarId (List ℕ)) (cmd : SimpleCommand) :
    SimpleCommand := { cmd with waitingVarParMap := waiting }

/-- What `GetAllCmds` reads and writes of a transaction. -/
structure TxnCommand where
  id : ℕ := 0
  type : ℕ
  timestamp : ℕ := 0
  inputs : OrdMap ℕ TxnWorkspace := .empty
  outputSize : OrdMap ℕ ℤ := .empty
  status : OrdMap ℕ CommandStatus
  cmds : OrdMap ℕ SimpleCommand := .empty
  partitionIds : OrdSet ℕ := ∅
  nPiecesAll : ℤ
  nPiecesDispatchable : ℤ
  nPiecesDispatched : ℤ := 0

/-- The workspace of a waiting piece, with a flag for each input. -/
def TxnWorkspace.flag (ws : TxnWorkspace) : TxnWorkspace :=
  { ws with
    pieceInputReady := 0#32
    inputVarReady := ws.keys.elems.foldl
      (fun flags k => flags.set k (if (ws.values.find k).isSome then 1#32 else 0#32))
      ws.inputVarReady }

/-- The inputs a piece has no value for. -/
def TxnWorkspace.missing (ws : TxnWorkspace) : List VarId :=
  ws.keys.elems.filter fun k => (ws.values.find k).isNone

/-- The partition waits for these variables. -/
def awaiting (par : ℕ) (waiting : OrdMap VarId (List ℕ)) (ks : List VarId) :
    OrdMap VarId (List ℕ) :=
  ks.foldl (fun w k => w.set k ((w.find k).getD [] ++ [par])) waiting

/-- The loop of `GetAllCmds`: the transaction, the commands so far and for which variables partitions
    wait, and how many pieces are not needed. -/
structure Chopping where
  txn : TxnCommand
  cmds : OrdMap ℕ (List SimpleCommand) := .empty
  waitingVarParMap : OrdMap VarId (List ℕ) := .empty
  nNotUsed : ℕ := 0

namespace TxnCommand
variable (shard : ℕ → Option ℕ) (c : TxnCommand)

/-- `inputs_[pi]`. -/
def inputOf (pi : ℕ) : TxnWorkspace := (c.inputs.find pi).getD {}

/-- The command made of a piece, before the waiting partitions are entered. -/
def command (par : ℕ) (e : ℕ × CommandStatus) : SimpleCommand where
  innId := e.1
  partitionId := par
  type := e.1
  rootId := c.id
  rootType := c.type
  input := if e.2 = .DISPATCHABLE then { c.inputOf e.1 with pieceInputReady := 1#32 }
    else (c.inputOf e.1).flag
  outputSize := (c.outputSize.find e.1).getD 0
  timestamp := c.timestamp

/-- A piece becomes a command. -/
def enter (s : Chopping) (par : ℕ) (e : ℕ × CommandStatus) : Chopping :=
  let cmd := s.txn.command par e
  { s with
    txn := { s.txn with
      inputs := s.txn.inputs.set e.1 (s.txn.inputOf e.1)
      outputSize := s.txn.outputSize.set e.1 ((s.txn.outputSize.find e.1).getD 0)
      cmds := s.txn.cmds.set e.1 cmd
      partitionIds := s.txn.partitionIds.insert par
      status := s.txn.status.set e.1 .DISPATCHED
      nPiecesDispatched := s.txn.nPiecesDispatched + 1 }
    cmds := s.cmds.set par ((s.cmds.find par).getD [] ++ [cmd])
    waitingVarParMap := if e.2 = .WAITING then
      awaiting par s.waitingVarParMap (s.txn.inputOf e.1).missing else s.waitingVarParMap }

/-- One turn of the loop. -/
def chop (s : Chopping) (e : ℕ × CommandStatus) : Option Chopping :=
  if e.2 = .OUTPUT_READY then some { s with nNotUsed := s.nNotUsed + 1 }
  else (shard e.1).bind fun par =>
    if (e.2 = .DISPATCHABLE ∨ e.2 = .WAITING) ∧ 0 < s.txn.type then some (enter s par e) else none

def getAllCmds : Option (TxnCommand × OrdMap ℕ (List SimpleCommand)) := do
  guard (c.nPiecesDispatched < c.nPiecesDispatchable)
  guard (c.nPiecesDispatched < c.nPiecesAll)
  let s ← run (chop shard) { txn := c } c.status.entries
  guard (s.txn.cmds.entries.length + s.nNotUsed = s.txn.status.entries.length)
  guard (s.cmds.entries ≠ [])
  some (s.txn, s.cmds.mapVal (map (·.announce s.waitingVarParMap)))

variable {shard c} {s : Chopping} {e : ℕ × CommandStatus}

theorem find_awaiting (par : ℕ) (k : VarId) : ∀ {ks : List VarId} (w : OrdMap VarId (List ℕ)),
    ks.Nodup → (awaiting par w ks).find k =
      if k ∈ ks then some ((w.find k).getD [] ++ [par]) else w.find k
  | [], _, _ => rfl
  | a :: ks, w, h => by
    obtain ⟨ha, hks⟩ := nodup_cons.mp h
    rw [awaiting, foldl_cons, ← awaiting, find_awaiting par k _ hks]
    rcases eq_or_ne k a with rfl | hk
    · simp [ha, find_set_self]
    · simp [hk, find_set_ne]

theorem nodup_missing (ws : TxnWorkspace) : ws.missing.Nodup :=
  List.Nodup.filter _ (ws.keys.sorted.imp fun h => h.ne)

/-- What the loop has done with the pieces `es`. -/
structure Chopped (shard : ℕ → Option ℕ) (c : TxnCommand) (es : List (ℕ × CommandStatus))
    (s : Chopping) : Prop where
  type : s.txn.type = c.type
  input : ∀ pi, s.txn.inputOf pi = c.inputOf pi
  command : ∀ par e, s.txn.command par e = c.command par e
  cmds : ∀ par, (s.cmds.find par).getD [] = (es.filter fun e =>
    e.2 ≠ .OUTPUT_READY ∧ shard e.1 = some par).map (c.command par)
  waiting : ∀ k, (s.waitingVarParMap.find k).getD [] = (es.filter fun e =>
    e.2 = .WAITING ∧ k ∈ (c.inputOf e.1).missing).filterMap fun e => shard e.1
  listed : ∀ k, s.waitingVarParMap.find k ≠ some []
  notUsed : s.nNotUsed = es.countP fun e => e.2 = .OUTPUT_READY
  kept : ∀ pi, (s.txn.cmds.find pi).isSome ↔ (c.cmds.find pi).isSome ∨
    pi ∈ (es.filter fun e => e.2 ≠ .OUTPUT_READY).map Prod.fst
  status : ∀ pi, (s.txn.status.find pi).isSome ↔ (c.status.find pi).isSome ∨
    pi ∈ (es.filter fun e => e.2 ≠ .OUTPUT_READY).map Prod.fst

theorem Chopped.chop {es : List (ℕ × CommandStatus)} (h : Chopped shard c es s) (htype : 0 < c.type)
    (he : e.2 ≠ .OUTPUT_READY → (e.2 = .DISPATCHABLE ∨ e.2 = .WAITING) ∧ (shard e.1).isSome) :
    ∃ s', TxnCommand.chop shard s e = some s' ∧ Chopped shard c (es ++ [e]) s' := by
  by_cases hdone : e.2 = .OUTPUT_READY
  · refine ⟨_, if_pos hdone, ?_⟩
    constructor <;> simp [filter_append, hdone, h.type, h.input, h.command, h.cmds, h.waiting,
      h.listed, h.notUsed, h.kept, h.status]
  obtain ⟨hstatus, hsome⟩ := he hdone
  obtain ⟨par, hpar⟩ := Option.isSome_iff_exists.mp hsome
  refine ⟨enter s par e, by simp [TxnCommand.chop, hdone, hpar, hstatus, h.type, htype], ?_⟩
  constructor
  · exact h.type
  · exact fun pi => (getD_find_touch _ _ _ _).trans (h.input pi)
  · intro q e'
    rw [← h.command q e']
    simp only [TxnCommand.command, enter, inputOf, getD_find_touch]
  · intro q
    rw [enter, h.command, find_set, filter_append, map_append, ← h.cmds q]
    rcases eq_or_ne q par with rfl | hq
    · simp [hdone, hpar]
    · simp [hdone, hpar, hq, hq.symm]
  · intro k
    rw [filter_append, filterMap_append, ← h.waiting k, enter, h.input]
    by_cases hw : e.2 = .WAITING
    · rw [if_pos hw, find_awaiting _ _ _ (nodup_missing _)]
      by_cases hk : k ∈ (c.inputOf e.1).missing <;> simp [hw, hk, hpar]
    · simp [hw]
  · intro k
    rw [enter]
    split
    case isTrue =>
      rw [find_awaiting _ _ _ (nodup_missing _)]
      split
      · simp
      · exact h.listed k
    case isFalse => exact h.listed k
  · simp [enter, h.notUsed, hdone]
  · intro pi
    rw [enter, find_set, filter_append, map_append, mem_append, ← or_assoc,
      ← h.kept]
    by_cases hpi : pi = e.1 <;> simp [hpi, hdone]
  · intro pi
    rw [enter, find_set, filter_append, map_append, mem_append, ← or_assoc,
      ← h.status]
    by_cases hpi : pi = e.1 <;> simp [hpi, hdone]

theorem Chopped.run (htype : 0 < c.type) : ∀ {l es : List (ℕ × CommandStatus)} {s : Chopping},
    Chopped shard c es s → (∀ e ∈ l, e.2 ≠ .OUTPUT_READY →
      (e.2 = .DISPATCHABLE ∨ e.2 = .WAITING) ∧ (shard e.1).isSome) →
    ∃ s', Fiss.run (TxnCommand.chop shard) s l = some s' ∧ Chopped shard c (es ++ l) s'
  | [], es, s, h, _ => ⟨s, rfl, by rwa [append_nil]⟩
  | e :: l, es, s, h, hl => by
    obtain ⟨t, ht, h⟩ := h.chop htype (hl e mem_cons_self)
    obtain ⟨s', hs', h⟩ := h.run htype fun e he => hl e (mem_cons_of_mem _ he)
    exact ⟨s', run_cons.mpr ⟨t, ht, hs'⟩, by rwa [append_cons]⟩

/-! ### Every piece and every known input -/

variable (shard c)

/-- A piece that is not done. -/
def undone (pi : ℕ) : Bool := (c.status.find pi).any fun st => st ≠ .OUTPUT_READY

/-- Undone pieces wait or have all their inputs. -/
structure Prepared : Prop where
  status : ∀ e ∈ c.status.entries, e.2 ≠ .OUTPUT_READY → e.2 = .DISPATCHABLE ∨ e.2 = .WAITING
  ready : ∀ e ∈ c.status.entries, e.2 = .DISPATCHABLE →
    ∀ k ∈ (c.inputOf e.1).keys.elems, ((c.inputOf e.1).values.find k).isSome

/-- What `GetAllCmds` and the messages check: there is something to dispatch, no command of a piece
    that is done is left, all partitions are known, and no value sent is a placeholder. -/
structure Callable : Prop where
  counts : c.nPiecesDispatched < c.nPiecesDispatchable ∧ c.nPiecesDispatched < c.nPiecesAll
  type : 0 < c.type
  some : ∃ e ∈ c.status.entries, e.2 ≠ .OUTPUT_READY
  cmds : ∀ e ∈ c.cmds.entries, c.undone e.1 = true
  partition : ∀ e ∈ c.status.entries, e.2 ≠ .OUTPUT_READY → (shard e.1).isSome
  known : ∀ e ∈ c.status.entries, e.2 ≠ .OUTPUT_READY → ∀ k ∈ (c.inputOf e.1).keys.elems,
    ∀ v ∈ (c.inputOf e.1).values.find k, v.datum ≠ .unknown

/-- The commands: each undone piece once and under its own partition, with its own inputs flagged as
    they are there, and with the partitions that wait for each missing variable. -/
structure Dispatched (cmds : OrdMap ℕ (List SimpleCommand)) : Prop where
  once : ∀ par pi, (((cmds.find par).getD []).filter fun cmd => cmd.innId = pi).length =
    if c.undone pi ∧ shard pi = .some par then 1 else 0
  input : ∀ par, ∀ cmd ∈ (cmds.find par).getD [], cmd.partitionId = par ∧
    cmd.input.keys = (c.inputOf cmd.innId).keys ∧
    cmd.input.values = (c.inputOf cmd.innId).values ∧
    ∀ k ∈ cmd.input.keys, cmd.input.Ready k ↔ (cmd.input.values.find k).isSome
  waiting : ∀ par, ∀ cmd ∈ (cmds.find par).getD [], ∀ k q,
    q ∈ (cmd.waitingVarParMap.find k).getD [] ↔ ∃ pi, c.status.find pi = .some .WAITING ∧
      k ∈ (c.inputOf pi).missing ∧ shard pi = .some q
  listed : ∀ par, ∀ cmd ∈ (cmds.find par).getD [], ∀ k, cmd.waitingVarParMap.find k ≠ .some []

variable {shard c}

theorem find_flag (ws : TxnWorkspace) {k : VarId} (hk : k ∈ ws.keys) :
    ws.flag.inputVarReady.find k = .some (if (ws.values.find k).isSome then 1#32 else 0#32) := by
  rw [TxnWorkspace.flag, find_foldl_set, if_pos (mem_elems.mpr hk)]

theorem ready_command (h : c.Prepared) (he : e ∈ c.status.entries)
    (par : ℕ) {k : VarId} (hk : k ∈ (c.inputOf e.1).keys) :
    (c.command par e).input.Ready k ↔ ((c.inputOf e.1).values.find k).isSome := by
  by_cases hd : e.2 = .DISPATCHABLE
  · simp [command, hd, TxnWorkspace.Ready, h.ready e he hd k hk]
  · rw [command, if_neg hd, TxnWorkspace.Ready, find_flag _ hk]
    cases ((c.inputOf e.1).values.find k).isSome <;> simp [TxnWorkspace.flag]

theorem input_command (c : TxnCommand) (par : ℕ) (e : ℕ × CommandStatus) :
    (c.command par e).input.keys = (c.inputOf e.1).keys ∧
      (c.command par e).input.values = (c.inputOf e.1).values := by
  simp only [command]
  split <;> exact ⟨rfl, rfl⟩

theorem flagged_command (h : c.Prepared) (hc : c.Callable shard)
    (he : e ∈ c.status.entries) (hne : e.2 ≠ .OUTPUT_READY) (par : ℕ) :
    (c.command par e).input.Flagged := by
  have hsame := input_command c par e
  refine ⟨fun k hk hr => ?_, fun k hk hr => ?_⟩
  · rw [hsame.1] at hk
    obtain ⟨v, hv⟩ := Option.isSome_iff_exists.mp ((ready_command h he par hk).mp hr)
    exact ⟨v, hsame.2 ▸ hv, hc.known e he hne k hk v hv⟩
  · rw [hsame.1] at hk
    have hnone := mt (ready_command h he par hk).mpr hr
    by_cases hd : e.2 = .DISPATCHABLE
    · exact absurd (h.ready e he hd k hk) hnone
    · rw [command, if_neg hd, find_flag _ hk, if_neg hnone]

theorem Chopped.length (hc : c.Callable shard) (h : Chopped shard c c.status.entries s) :
    s.txn.cmds.entries.length + s.nNotUsed = s.txn.status.entries.length := by
  have hsub : ((c.status.entries.filter fun e => e.2 ≠ .OUTPUT_READY).map Prod.fst).Sublist
      c.status.keys := filter_sublist.map Prod.fst
  have hcmds : s.txn.cmds.entries.length =
      ((c.status.entries.filter fun e => e.2 ≠ .OUTPUT_READY).map Prod.fst).length := by
    refine length_eq (hsub.nodup c.status.nodup_keys) fun pi => ?_
    rw [h.kept, or_iff_right_of_imp]
    intro hpi
    obtain ⟨cmd, hcmd⟩ := Option.isSome_iff_exists.mp hpi
    have hundone := hc.cmds _ (find_eq_some.mp hcmd)
    obtain ⟨st, hst, hne⟩ := (Option.any_eq_true _ _).mp hundone
    exact mem_map.mpr ⟨(pi, st), mem_filter.mpr ⟨find_eq_some.mp hst, hne⟩, rfl⟩
  have hstatus : s.txn.status.entries.length = c.status.keys.length := by
    refine length_eq c.status.nodup_keys fun pi => ?_
    rw [h.status, ← OrdMap.mem_keys, or_iff_left_of_imp fun hpi => hsub.subset hpi]
  have hsplit := length_eq_countP_add_countP (fun e => decide (e.2 = .OUTPUT_READY))
    (l := c.status.entries)
  rw [hcmds, hstatus, h.notUsed, OrdMap.keys, length_map, length_map, hsplit,
    ← countP_eq_length_filter, Nat.add_comm]
  simp

theorem Chopped.mem_cmds (h : Chopped shard c c.status.entries s) {par : ℕ} {cmd : SimpleCommand}
    (hcmd : cmd ∈ ((s.cmds.mapVal (map (·.announce s.waitingVarParMap))).find par).getD []) :
    ∃ e ∈ c.status.entries, e.2 ≠ .OUTPUT_READY ∧ shard e.1 = .some par ∧
      cmd = (c.command par e).announce s.waitingVarParMap := by
  have hmap := h.cmds par
  rw [find_mapVal] at hcmd
  cases hfind : s.cmds.find par with
  | none => simp [hfind] at hcmd
  | some l =>
    rw [hfind, Option.getD_some] at hmap
    rw [hfind, Option.map_some, Option.getD_some, hmap] at hcmd
    simp only [mem_map, mem_filter, decide_eq_true_eq] at hcmd
    obtain ⟨cmd', ⟨e, ⟨he, hne, hpar⟩, rfl⟩, rfl⟩ := hcmd
    exact ⟨e, he, hne, hpar, rfl⟩

theorem Chopped.once (h : Chopped shard c c.status.entries s) (par pi : ℕ) :
    ((((s.cmds.mapVal (map (·.announce s.waitingVarParMap))).find par).getD []).filter
      fun cmd => cmd.innId = pi).length = if c.undone pi ∧ shard pi = .some par then 1 else 0 := by
  have hmap : ((s.cmds.mapVal (map (·.announce s.waitingVarParMap))).find par).getD [] =
      ((s.cmds.find par).getD []).map (·.announce s.waitingVarParMap) := by
    rw [find_mapVal]
    cases s.cmds.find par <;> rfl
  rw [hmap, h.cmds, map_map, filter_map, length_map]
  change ((c.status.entries.filter _).filter fun e => e.1 = pi).length = _
  rw [filter_comm, filter_key, undone]
  cases c.status.find pi with
  | none => simp
  | some st => by_cases hst : st = .OUTPUT_READY <;> by_cases hpar : shard pi = .some par <;>
      simp [hst, hpar]

theorem Chopped.dispatched (hc : c.Prepared) (h : Chopped shard c c.status.entries s) :
    c.Dispatched shard (s.cmds.mapVal (map (·.announce s.waitingVarParMap))) where
  once := h.once
  input par cmd hcmd := by
    obtain ⟨e, he, -, -, rfl⟩ := h.mem_cmds hcmd
    obtain ⟨hkeys, hvalues⟩ := input_command c par e
    refine ⟨rfl, hkeys, hvalues, fun k hk => ?_⟩
    change (c.command par e).input.Ready k ↔ ((c.command par e).input.values.find k).isSome
    rw [hvalues]
    exact ready_command hc he par (hkeys ▸ hk)
  waiting par cmd hcmd k q := by
    obtain ⟨-, -, -, -, rfl⟩ := h.mem_cmds hcmd
    rw [SimpleCommand.announce, h.waiting k]
    simp [find_eq_some, and_assoc]
  listed par cmd hcmd := by
    obtain ⟨-, -, -, -, rfl⟩ := h.mem_cmds hcmd
    exact h.listed

/-- Where its checks pass, `GetAllCmds` returns a command for every undone piece, once and under its
    own partition, and the workspace of each command can be sent and read. -/
theorem dispatch_complete (h : c.Prepared) (hc : c.Callable shard) :
    ∃ c' cmds, c.getAllCmds shard = .some (c', cmds) ∧ c.Dispatched shard cmds ∧
      ∀ par, ∀ cmd ∈ (cmds.find par).getD [], ∀ E, cmd.input.RoundTrip E := by
  have hstart : Chopped shard c [] { txn := c } := by
    constructor <;> simp [find, empty]
  obtain ⟨s, hrun, hs⟩ := hstart.run hc.type fun e he hne =>
    ⟨h.status e he hne, hc.partition e he hne⟩
  rw [nil_append] at hs
  have hnonempty : s.cmds.entries ≠ [] := by
    obtain ⟨e, he, hne⟩ := hc.some
    obtain ⟨par, hpar⟩ := Option.isSome_iff_exists.mp (hc.partition e he hne)
    have hmem : c.command par e ∈ (s.cmds.find par).getD [] := by
      rw [hs.cmds]
      exact mem_map_of_mem (mem_filter.mpr ⟨he, by simp [hne, hpar]⟩)
    intro hnil
    simp [find, hnil] at hmem
  refine ⟨s.txn, s.cmds.mapVal (map (·.announce s.waitingVarParMap)), ?_, hs.dispatched h,
    fun par cmd hcmd => ?_⟩
  · simp [getAllCmds, hc.counts, hrun, hs.length hc, hnonempty]
  · obtain ⟨e, he, hne, -, rfl⟩ := hs.mem_cmds hcmd
    exact fun E => (flagged_command h hc he hne par).roundTrip E

/-- Inputs 5 and 6, of which 5 is there. -/
def five : VarId := ⟨5, by decide⟩

def six : VarId := ⟨6, by decide⟩

/-- A piece with input 5, and one that waits for input 6. -/
def twoPieces (v : Value) : TxnCommand where
  type := 7
  inputs := (empty.set 1 { keys := {five}, values := .set .empty five v }).set
    2 { keys := {five, six}, values := .set .empty five v }
  status := (empty.set 1 .DISPATCHABLE).set 2 .WAITING
  nPiecesAll := 2
  nPiecesDispatchable := 1

theorem dispatch_complete_twoPieces : ∃ c' cmds,
    (twoPieces ⟨0, .i32 3⟩).getAllCmds .some = .some (c', cmds) ∧
      (twoPieces ⟨0, .i32 3⟩).Dispatched .some cmds ∧
      ∀ par, ∀ cmd ∈ (cmds.find par).getD [], ∀ E, cmd.input.RoundTrip E :=
  dispatch_complete ⟨by decide, by decide⟩
    ⟨by decide, by decide, by decide, by decide, by decide, by decide⟩

/-- Each check can fail: nothing is counted as dispatchable, the type is 0, all pieces are done, a
    command is left of a piece that is done, a partition is not known; and a placeholder in the place
    of a value cannot be sent. -/
theorem dispatch_checks :
    (∀ c ∈ [{ twoPieces {} with nPiecesDispatchable := 0 }, { twoPieces {} with type := 0 },
        { twoPieces {} with status := .set .empty 1 .OUTPUT_READY },
        { twoPieces {} with
          status := .set (.set .empty 1 .OUTPUT_READY) 2 .WAITING
          cmds := .set .empty 1 ((twoPieces {}).command 1 (1, .DISPATCHABLE)) }],
      c.Prepared ∧ c.getAllCmds .some = none) ∧
    (twoPieces {}).Prepared ∧ (twoPieces {}).getAllCmds (fun _ => none) = none ∧
    ∀ E, ((twoPieces {}).command 1 (1, .DISPATCHABLE)).input.put E = none := by
  refine ⟨?_, ⟨by decide, by decide⟩, rfl, fun _ => rfl⟩
  simp only [forall_mem_cons]
  exact ⟨⟨⟨by decide, by decide⟩, rfl⟩, ⟨⟨by decide, by decide⟩, rfl⟩,
    ⟨⟨by decide, by decide⟩, rfl⟩, ⟨⟨by decide, by decide⟩, rfl⟩, by simp⟩

end TxnCommand

end Fiss.Chopper
