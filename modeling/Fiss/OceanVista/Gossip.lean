import Fiss.Schemes.OrdMap
import Fiss.Schemes.OrdSet
import Fiss.Schemes.Runs

/-! The watermarks of Ocean Vista. The servers hand out timestamps and keep those of the transactions
    that are not yet stored. The gossiper of a data centre asks its servers for their watermarks and
    gossips the least of them with the other data centres; the least over the data centres is the
    watermark that the servers are told, below which they take transactions to be final.

    A reading of the clock is an argument of the call that reads it, with the drift added.
    `last_clock_` starts with whatever the memory held. Counting it past the last 64-bit integer has
    no result. A site is its number, data centres are numbers for their names, and which of its sites
    gossips for a data centre is a datum of the configuration. Left out is what else happens when a
    server is told a higher watermark (the stored transactions below it run) and what wakes the loops
    of a gossiper: they may go round at any time, and a message may come at any time after it was
    sent, or again. -/

namespace Fiss.OceanVista

/-- `ov_ts_t`. -/
@[ext] structure OvTs where
  timestamp : ℤ := 0
  siteId : ℤ := 0
  deriving DecidableEq

namespace OvTs

/-- `operator<`. -/
def less (a b : OvTs) : Bool :=
  if a.timestamp < b.timestamp then true
  else if b.timestamp < a.timestamp then false
  else a.siteId < b.siteId

variable {a b : OvTs}

instance : LT OvTs := ⟨fun a b => a.less b = true⟩

instance : LE OvTs := ⟨fun a b => b.less a = false⟩

instance : DecidableLT OvTs := fun a b => inferInstanceAs (Decidable (a.less b = true))

instance : DecidableLE OvTs := fun a b => inferInstanceAs (Decidable (b.less a = false))

theorem lt_iff : a < b ↔ a.timestamp < b.timestamp ∨
    a.timestamp = b.timestamp ∧ a.siteId < b.siteId := by
  change a.less b = true ↔ _
  unfold less
  split
  · simp_all
  · split
    · simp only [Bool.false_eq_true, false_iff]
      omega
    · simp only [decide_eq_true_eq]
      omega

theorem le_iff_not_lt : a ≤ b ↔ ¬ b < a := (Bool.not_eq_true (b.less a)).symm.to_iff

theorem le_iff : a ≤ b ↔ a.timestamp < b.timestamp ∨
    a.timestamp = b.timestamp ∧ a.siteId ≤ b.siteId := by
  rw [le_iff_not_lt, lt_iff]
  omega

instance : LinearOrder OvTs where
  le_refl a := by rw [le_iff]; omega
  le_trans a b c hab hbc := by rw [le_iff] at *; omega
  lt_iff_le_not_ge a b := by rw [lt_iff, le_iff, le_iff]; omega
  le_antisymm a b hab hba := by
    rw [le_iff] at hab hba
    ext <;> omega
  le_total a b := by rw [le_iff, le_iff]; omega
  toDecidableLE := inferInstance

end OvTs

/-- A site id where it is stored as a signed 16-bit integer. -/
def int16 (site : ℕ) : ℤ := (site : ℤ).bmod (2 ^ 16)

structure TidMgr where
  siteId : ℕ
  lastClock : ℤ
  sPhaseTxns : OrdMap OvTs ℕ := .empty

namespace TidMgr

def getMonotTimestamp (reading : ℤ) (m : TidMgr) : Option (OvTs × TidMgr) :=
  if reading ≤ m.lastClock then
    if m.lastClock + 1 < 2 ^ 63 then
      some (⟨m.lastClock + 1, int16 m.siteId⟩, { m with lastClock := m.lastClock + 1 })
    else none
  else some (⟨reading, int16 m.siteId⟩, { m with lastClock := reading })

def createTs (txnId : ℕ) (reading : ℤ) (m : TidMgr) : Option (OvTs × TidMgr) :=
  (m.getMonotTimestamp reading).map fun r =>
    (r.1, { r.2 with sPhaseTxns := r.2.sPhaseTxns.set r.1 txnId })

/-- Both `verify`s ask for the transaction under its timestamp. -/
def storedTs (txnId : ℕ) (timestamp serverId : ℤ) (m : TidMgr) : Option TidMgr :=
  let ovts : OvTs := ⟨timestamp, serverId⟩
  if m.sPhaseTxns.find ovts = some txnId then
    some { m with sPhaseTxns := m.sPhaseTxns.erase ovts }
  else none

def getServerVWatermark (reading : ℤ) (m : TidMgr) : Option (OvTs × TidMgr) :=
  match m.sPhaseTxns.entries with
  | [] => m.getMonotTimestamp reading
  | e :: _ => some (e.1, m)

end TidMgr

structure SchedulerOV where
  tidMgr : TidMgr
  vwatermark : OvTs := {}

namespace SchedulerOV

def onCreateTs (txnId : ℕ) (reading : ℤ) (s : SchedulerOV) : Option SchedulerOV :=
  (s.tidMgr.createTs txnId reading).map fun r => { s with tidMgr := r.2 }

def onStoredRemoveTs (txnId : ℕ) (timestamp serverId : ℤ) (s : SchedulerOV) : Option SchedulerOV :=
  (s.tidMgr.storedTs txnId timestamp serverId).map fun m => { s with tidMgr := m }

def onPublish (dcOvts : OvTs) (reading : ℤ) (s : SchedulerOV) : Option (OvTs × SchedulerOV) :=
  (s.tidMgr.getServerVWatermark reading).map fun r =>
    (r.1, { s with
      tidMgr := r.2, vwatermark := if dcOvts > s.vwatermark then dcOvts else s.vwatermark })

end SchedulerOV

structure Config where
  /-- the number of servers -/
  sites : ℕ
  /-- the data centre of a site -/
  dc : ℕ → ℕ
  /-- the site that gossips for a data centre, its first by name -/
  first : ℕ → ℕ

def Config.dcs (C : Config) : List ℕ := (List.range C.sites).map C.dc

/-- `if (w > marks[k]) marks[k] = w`; to look a key up puts it there. -/
def raise (marks : OrdMap ℕ OvTs) (k : ℕ) (w : OvTs) : OrdMap ℕ OvTs :=
  let old := (marks.find k).getD {}
  marks.set k (if w > old then w else old)

/-- The loop for the least watermark of a map; there is none in an empty map. -/
def minOvts (marks : OrdMap ℕ OvTs) : Option OvTs :=
  marks.entries.head?.map fun e =>
    marks.entries.foldl (fun minOvts r => if r.2 < minOvts then r.2 else minOvts) e.2

structure OVGossiper where
  myDcname : ℕ
  /-- `peer_gossiper_dc_siteid_map_` -/
  peers : OrdMap ℕ ℕ
  dcWatermarks : OrdMap ℕ OvTs
  siteWatermarks : OrdMap ℕ OvTs
  myVwatermark : OvTs := {}
  publishAckReceived : OrdSet ℕ := ∅
  exchangeAckReceived : OrdSet ℕ := ∅

/-- The messages between the gossipers and the servers: the watermark for a server of a data centre
    and its answer, and the watermark of a data centre for another one and its answer. -/
inductive Message where
  | publish (dc site : ℕ) (vwatermark : OvTs)
  | publishAck (dc site : ℕ) (ovts : OvTs)
  | exchange (source target : ℕ) (dvw : OvTs)
  | exchangeAck (source target : ℕ) (ovts : OvTs)
  deriving DecidableEq

namespace OVGossiper

def new (C : Config) (dcname : ℕ) : OVGossiper where
  myDcname := dcname
  peers := (C.dcs.filter (· ≠ dcname)).foldl (fun m d => m.set d (C.first d)) .empty
  dcWatermarks := C.dcs.foldl (fun m d => m.set d {}) .empty
  siteWatermarks :=
    ((List.range C.sites).filter (C.dc · = dcname)).foldl (fun m site => m.set site {}) .empty

def onExchange (dcname : ℕ) (dvwOvts : OvTs) (g : OVGossiper) : OvTs × OVGossiper :=
  let g' : OVGossiper := { g with dcWatermarks := raise g.dcWatermarks dcname dvwOvts }
  ((g'.dcWatermarks.find g.myDcname).getD {}, g')

def aggregate (g : OVGossiper) : List Message × OVGossiper :=
  (g.siteWatermarks.keys.map fun site => .publish g.myDcname site g.myVwatermark,
    { g with publishAckReceived := ∅ })

def publishAck (site : ℕ) (retOvts : OvTs) (g : OVGossiper) : Option OVGossiper :=
  if (g.siteWatermarks.find site).isNone then none else
    let g' : OVGossiper := { g with
      publishAckReceived := g.publishAckReceived.insert site
      siteWatermarks := raise g.siteWatermarks site retOvts }
    if g'.publishAckReceived.elems.length = g'.siteWatermarks.entries.length then
      (minOvts g'.siteWatermarks).map fun min =>
        { g' with dcWatermarks := g'.dcWatermarks.set g'.myDcname min }
    else some g'

def gossip (g : OVGossiper) : List Message × OVGossiper :=
  (g.peers.keys.map fun d =>
      .exchange g.myDcname d ((g.dcWatermarks.find g.myDcname).getD {}),
    { g with exchangeAckReceived := ∅ })

def exchangeAck (site dcname : ℕ) (retOvts : OvTs) (g : OVGossiper) : Option OVGossiper :=
  if (g.dcWatermarks.find dcname).isNone then none else
    let g' : OVGossiper := { g with
      exchangeAckReceived := g.exchangeAckReceived.insert site
      dcWatermarks := raise g.dcWatermarks dcname retOvts }
    if g'.exchangeAckReceived.elems.length = g'.peers.entries.length then
      (minOvts g'.dcWatermarks).map fun min => { g' with myVwatermark := min }
    else some g'

end OVGossiper

/-- The servers, the gossiper of each data centre and the messages sent so far, in order. -/
structure System where
  servers : ℕ → SchedulerOV
  gossipers : ℕ → OVGossiper
  messages : List Message := []

namespace System

def setServer (s : System) (site : ℕ) (x : SchedulerOV) : System :=
  { s with servers := Function.update s.servers site x }

def setGossiper (s : System) (dc : ℕ) (g : OVGossiper) : System :=
  { s with gossipers := Function.update s.gossipers dc g }

def send (s : System) (messages : List Message) : System :=
  { s with messages := s.messages ++ messages }

end System

/-- What may happen next: calls of coordinators, the loops of a gossiper, and messages that come. -/
inductive Event where
  | createTs (site txnId : ℕ) (reading : ℤ)
  | storedTs (site txnId : ℕ) (timestamp serverId : ℤ)
  | aggregate (dc : ℕ)
  | onPublish (dc site : ℕ) (vwatermark : OvTs) (reading : ℤ)
  | publishAck (dc site : ℕ) (ovts : OvTs)
  | gossip (dc : ℕ)
  | onExchange (source target : ℕ) (dvw : OvTs)
  | exchangeAck (source target : ℕ) (ovts : OvTs)

/-- Nothing is handed out yet; `clock` is what `last_clock_` holds at each site. -/
def init (C : Config) (clock : ℕ → ℤ) : System where
  servers site := { tidMgr := { siteId := site, lastClock := clock site } }
  gossipers := .new C

def step (C : Config) (s : System) : Event → Option System
  | .createTs site txnId reading =>
    if site < C.sites then ((s.servers site).onCreateTs txnId reading).map (s.setServer site)
    else none
  | .storedTs site txnId timestamp serverId =>
    if site < C.sites then
      ((s.servers site).onStoredRemoveTs txnId timestamp serverId).map (s.setServer site)
    else none
  | .aggregate dc =>
    if dc ∈ C.dcs then
      let r := (s.gossipers dc).aggregate
      some ((s.setGossiper dc r.2).send r.1)
    else none
  | .onPublish dc site vwatermark reading =>
    if .publish dc site vwatermark ∈ s.messages then
      ((s.servers site).onPublish vwatermark reading).map fun r =>
        (s.setServer site r.2).send [.publishAck dc site r.1]
    else none
  | .publishAck dc site ovts =>
    if .publishAck dc site ovts ∈ s.messages then
      ((s.gossipers dc).publishAck site ovts).map (s.setGossiper dc)
    else none
  | .gossip dc =>
    if dc ∈ C.dcs then
      let r := (s.gossipers dc).gossip
      some ((s.setGossiper dc r.2).send r.1)
    else none
  | .onExchange source target dvw =>
    if .exchange source target dvw ∈ s.messages then
      let r := (s.gossipers target).onExchange source dvw
      some ((s.setGossiper target r.2).send [.exchangeAck source target r.1])
    else none
  | .exchangeAck source target ovts =>
    if .exchangeAck source target ovts ∈ s.messages then
      ((s.gossipers source).exchangeAck (C.first target) target ovts).map (s.setGossiper source)
    else none

end Fiss.OceanVista
