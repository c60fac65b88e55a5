import Fiss.Schemes.Dict
import Fiss.Schemes.OrdSet

/-! The transaction record of the dependency-tracking servers: what of it travels in a graph
    (`Vertex`), the pieces with their inputs (`SimpleCommand`, `TxnWorkspace`), and the record each
    server and coordinator keeps under the transaction's id (`RccDTxn`). -/

namespace Fiss.Rcc

/-- A column value, by its kind. -/
inductive Value where
  | i32 (n : ℤ)
  | i64 (n : ℤ)
  | double (bits : ℕ)
  | str (s : String)
  | unknown (blob : List ℕ)
  deriving DecidableEq

/-- The outputs of pieces, by `inn_id`. -/
abbrev TxnOutput := Dict ℕ (Dict ℕ Value)

/-! The status is a bit mask that is joined with `|=` and compared as a number. -/

def txnUkn : ℕ := 0x0
def txnStd : ℕ := 0x1
def txnPac : ℕ := 0x2
def txnCmt : ℕ := 0x8
def txnDcd : ℕ := 0x10
def txnAbt : ℕ := 0x40

/-- What a graph message carries of a transaction. -/
structure Vertex where
  status : ℕ := txnUkn
  partition : OrdSet ℕ := ∅
  parents : OrdSet ℕ := ∅
  deriving DecidableEq

/-- The inputs of a piece: the variables it declares, the values it has, and which have arrived. -/
structure TxnWorkspace where
  keys : OrdSet ℕ := ∅
  values : Dict ℕ Value := {}
  inputVarReady : Dict ℕ Bool := {}
  pieceInputReady : Bool := true
  deriving DecidableEq

/-- A piece of a transaction. -/
structure SimpleCommand where
  innId : ℕ
  type : ℕ
  rootType : ℕ := 0
  input : TxnWorkspace := {}
  /-- which partitions wait for a variable -/
  waitingVarParMap : Dict ℕ (List ℕ) := {}
  localExecuted : Bool := false
  deriving DecidableEq

inductive Phase where
  | start
  | dispatch
  | commit
  deriving DecidableEq

inductive InvolveEnum where
  | unknown
  | involved
  | foreign
  deriving DecidableEq

/-- The record of one transaction. -/
structure RccDTxn extends Vertex where
  /-- the shards whose bit is set -/
  piggybackedShard : OrdSet ℕ := ∅
  maxSeenBallot : ℕ := 0
  maxAcceptedBallot : ℕ := 0
  /-- the component computed for this transaction, by ids -/
  scc : Option (List ℕ) := none
  phase : Phase := .start
  rootType : ℕ := 0
  dreqs : List SimpleCommand := []
  nLocalPieces : ℕ := 0
  nExecutedPieces : ℕ := 0
  /-- what each piece returned, by its `innId` -/
  output : TxnOutput := {}
  involveFlag : InvolveEnum := .unknown
  fullyDispatched : Bool := false
  executed : Bool := false
  committed : Bool := false
  /-- the transactions to look at again when this one is done -/
  toChecks : OrdSet ℕ := ∅
  /-- when this transaction was first asked about, 0 for never -/
  inquireTimer : ℕ := 0
  duringAsking : Bool := false
  /-- the commit message has come: `ptr_output_repy_` is set -/
  outputReply : Bool := false
  commitRequestReceived : Bool := false
  allTouchedShards : List ℕ := []
  deriving DecidableEq

namespace RccDTxn

variable (d : RccDTxn)

def isAborted : Bool := d.status &&& txnAbt ≠ 0

def isCommitting : Bool := d.status &&& txnCmt ≠ 0

def isDecided : Bool := d.status &&& txnDcd ≠ 0

/-- `UpdateStatus`: the status only rises. -/
def updateStatus (s : ℕ) : RccDTxn :=
  if d.status < s then { d with status := s } else d

/-- `union_status`, which `UpgradeStatus` comes down to. -/
def unionStatus (s : ℕ) : RccDTxn := { d with status := d.status ||| s }

/-- The record with other parents. -/
def setParents (parents : OrdSet ℕ) : RccDTxn := { d with parents := parents }

@[simp] theorem setParents_dreqs (d : RccDTxn) (ps : OrdSet ℕ) :
    (d.setParents ps).dreqs = d.dreqs := rfl

@[simp] theorem setParents_nExecutedPieces (d : RccDTxn) (ps : OrdSet ℕ) :
    (d.setParents ps).nExecutedPieces = d.nExecutedPieces := rfl

/-- `scc_ = ptr`. -/
def setScc (scc : List ℕ) : RccDTxn := { d with scc := some scc }

/-- `Involve`: the answer, and the record with the flag settled if the transaction commits. -/
def involve (par : ℕ) : Bool × RccDTxn :=
  match d.involveFlag with
  | .involved => (true, d)
  | .foreign => (false, d)
  | .unknown =>
    if par ∈ d.partition then
      (true, if d.isCommitting then { d with involveFlag := .involved } else d)
    else (false, if d.isCommitting then { d with involveFlag := .foreign } else d)

/-- `checkInquire` at time `now`: true 100 ms after the first call. -/
def checkInquire (now : ℕ) : Bool × RccDTxn :=
  if d.inquireTimer = 0 then (false, { d with inquireTimer := now })
  else (d.inquireTimer + 100 < now, d)

end RccDTxn

/-- The vertices of a server or of a coordinator. -/
abbrev Dtxns := Dict ℕ RccDTxn

/-- A graph in a message. -/
abbrev Graph := Dict ℕ Vertex

end Fiss.Rcc
