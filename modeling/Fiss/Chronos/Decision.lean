import Fiss.Chronos.Ready
import Fiss.Chronos.Subject

/-! Timestamps of the transactions over several regions. The manager of a region answers each of them
    with an anticipated timestamp, and the coordinator decides on the largest one.

    A manager's timestamps carry its own site id and ascend, so no two that are ever issued are equal.
    The coordinator decides when every partition is prepared. Each of them has then told the timestamp
    anticipated in its region, so what the coordinator has is all that was issued. -/

namespace Fiss.Chronos
open Fiss.Rcc List Function Option Prod OrdMap Sched

/-! ### The manager of a region -/

/-- `DastManager`. -/
structure Manager where
  clock : Clock
  maxFutureTs : ChrTs := {}

namespace Manager

/-- The timestamp `CalculateAnticipatedTs` begins with: the estimated round trip after both. -/
def estimate (mgrSiteId : ℕ) (srcTs recvTs : ChrTs) : ChrTs :=
  ⟨max srcTs.timestamp recvTs.timestamp + 90 * 1000, 0, mgrSiteId⟩

def calculateAnticipatedTs (mgrSiteId : ℕ) (srcTs recvTs : ChrTs) (m : Manager) : ChrTs :=
  if m.maxFutureTs < estimate mgrSiteId srcTs recvTs then estimate mgrSiteId srcTs recvTs
  else { m.maxFutureTs with timestamp := m.maxFutureTs.timestamp + 1 }

/-- `PrepareCRT`: the anticipated timestamp, and the manager that it holds back. -/
def prepareCRT (mgrSiteId : ℕ) (srcTs : ChrTs) (now : ℤ) (m : Manager) : ChrTs × Manager :=
  let recv := m.clock.generate now
  let ret := m.calculateAnticipatedTs mgrSiteId srcTs recv.1
  (ret, ⟨recv.2.hold ret, ret⟩)

/-- `NotiWait`; the timestamp to wait for now, if there is one. -/
def notiWait (originalTs : ChrTs) (newTs : Option ChrTs) (m : Manager) : Manager :=
  { m with clock := newTs.elim (m.clock.release originalTs) (m.clock.release originalTs).hold }

/-- A manager that has given out its own timestamps only. -/
structure Fit (mgrSiteId : ℕ) (m : Manager) : Prop where
  start : 0 ≤ m.clock.lastClock.timestamp
  own : m.maxFutureTs = {} ∨ m.maxFutureTs.siteId = mgrSiteId

variable {mgrSiteId : ℕ} {srcTs recvTs : ChrTs} {m : Manager}

theorem maxFutureTs_lt (mgrSiteId : ℕ) (srcTs recvTs : ChrTs) (m : Manager) :
    m.maxFutureTs < m.calculateAnticipatedTs mgrSiteId srcTs recvTs := by
  unfold calculateAnticipatedTs
  split
  · next h => exact h
  · exact ChrTs.lt_of_timestamp (Int.lt_succ _)

theorem estimate_le (mgrSiteId : ℕ) (srcTs recvTs : ChrTs) (m : Manager) :
    estimate mgrSiteId srcTs recvTs ≤ m.calculateAnticipatedTs mgrSiteId srcTs recvTs := by
  have hlt := maxFutureTs_lt mgrSiteId srcTs recvTs m
  unfold calculateAnticipatedTs at hlt ⊢
  split
  · exact le_rfl
  · next h =>
    rw [if_neg h] at hlt
    exact (not_lt.mp h).trans hlt.le

theorem srcTs_lt (mgrSiteId : ℕ) (srcTs recvTs : ChrTs) (m : Manager) :
    srcTs < m.calculateAnticipatedTs mgrSiteId srcTs recvTs := by
  refine lt_of_lt_of_le (ChrTs.lt_of_timestamp ?_) (estimate_le mgrSiteId srcTs recvTs m)
  have hmax := le_max_left srcTs.timestamp recvTs.timestamp
  show srcTs.timestamp < max srcTs.timestamp recvTs.timestamp + 90 * 1000
  omega

theorem estimate_pos (hrecv : 0 ≤ recvTs.timestamp) : {} < estimate mgrSiteId srcTs recvTs := by
  refine ChrTs.lt_of_timestamp ?_
  have hmax := le_max_right srcTs.timestamp recvTs.timestamp
  show (0 : ℤ) < max srcTs.timestamp recvTs.timestamp + 90 * 1000
  omega

theorem siteId_calculate (hm : m.Fit mgrSiteId) (hrecv : 0 ≤ recvTs.timestamp) :
    (m.calculateAnticipatedTs mgrSiteId srcTs recvTs).siteId = mgrSiteId := by
  unfold calculateAnticipatedTs
  split
  · rfl
  · next h =>
    rcases hm.own with hnew | hown
    · -- the first timestamp is larger than the initial bound
      exact absurd (hnew ▸ estimate_pos hrecv) h
    · exact hown

theorem prepareCRT_spec (hm : m.Fit mgrSiteId) (srcTs : ChrTs) (now : ℤ) :
    let r := m.prepareCRT mgrSiteId srcTs now
    r.2.Fit mgrSiteId ∧ r.2.maxFutureTs = r.1 ∧ m.maxFutureTs < r.1 ∧ srcTs < r.1 ∧ {} < r.1 ∧
      r.1.siteId = mgrSiteId := by
  have hrecv : 0 ≤ (m.clock.generate now).1.timestamp :=
    hm.start.trans (ChrTs.timestamp_le (Clock.lt_raise _ _).le)
  have hsite : (m.prepareCRT mgrSiteId srcTs now).1.siteId = mgrSiteId := siteId_calculate hm hrecv
  exact ⟨⟨hrecv, .inr hsite⟩, rfl, maxFutureTs_lt _ _ _ m, srcTs_lt _ _ _ m,
    (estimate_pos hrecv).trans_le (estimate_le _ _ _ m), hsite⟩

theorem Fit.notiWait (hm : m.Fit mgrSiteId) (originalTs : ChrTs) (newTs : Option ChrTs) :
    (m.notiWait originalTs newTs).Fit mgrSiteId := by
  refine ⟨?_, hm.own⟩
  cases newTs with
  | none | some ts => exact hm.start

end Manager

/-! ### All regions -/

/-- The sites of all regions; a region has `n_shard_per_region_` partitions. -/
structure Geo where
  site : ℕ → Site
  nShard : ℕ
  numSites : ℕ
  shard : ∀ x, (site x).nShardPerRegion = nShard

def Geo.mgrSiteId (G : Geo) (region : ℕ) : ℕ := G.numSites + region

/-- A transaction as it was submitted, and where. -/
structure Crt where
  id : ℕ
  site : ℕ
  cmdsByRegion : OrdMap ℕ Cmds
  srcTs : ChrTs
  deriving DecidableEq

/-- A timestamp issued for a transaction by the manager of a region. -/
structure Anticipated where
  id : ℕ
  region : ℕ
  ts : ChrTs
  deriving DecidableEq

/-- All sites and managers, with what has been submitted, issued and decided so far. -/
structure World where
  sites : ℕ → Sched
  mgrs : ℕ → Manager
  submitted : List Crt := []
  issued : List Anticipated := []
  decided : List (ℕ × ChrTs) := []

inductive WorldEvent where
  | submit (x id : ℕ) (cmdsByRegion : OrdMap ℕ Cmds) (now : ℤ)
  | issue (c : Crt) (region : ℕ) (now : ℤ)
  | notiWait (region : ℕ) (originalTs : ChrTs) (newTs : Option ChrTs)
  | event (x : ℕ) (e : Event)

namespace World

variable (w : World)

def setSite (x : ℕ) (s : Sched) : World := { w with sites := update w.sites x s }

def setMgr (r : ℕ) (m : Manager) : World := { w with mgrs := update w.mgrs r m }

def addSubmitted (c : Crt) : World := { w with submitted := w.submitted ++ [c] }

def addIssued (i : Anticipated) : World := { w with issued := w.issued ++ [i] }

def addDecided (l : List (ℕ × ChrTs)) : World := { w with decided := w.decided ++ l }

/-- The transaction has been decided on. -/
def IsDecided (id : ℕ) : Prop := id ∈ w.decided.map fst

end World

namespace Geo

variable (G : Geo)

/-- What `PrepareCRT` of a manager verifies of the pieces it is sent. -/
def Verified (region : ℕ) (cmds : Cmds) : Prop :=
  cmds.entries.head?.map (fun e => e.2.isEmpty) = some false ∧
    ∀ par ∈ cmds.keys, par / G.nShard = region

instance (region : ℕ) (cmds : Cmds) : Decidable (G.Verified region cmds) :=
  inferInstanceAs (Decidable (_ ∧ _))

/-- The messages about transactions over several regions that a site can get: what is anticipated has
    been issued, and nobody answers a decision that has not been made. -/
def Sendable (w : World) (x : ℕ) : Event → Prop
  | .submitCRT _ _ _ => False
  | .remotePrepared id par _ _ ts _ => ⟨id, par / G.nShard, ts⟩ ∈ w.issued
  | .prepareCRT id _ req _ => ⟨id, (G.site x).parId / G.nShard, req.anticipatedTs⟩ ∈ w.issued
  | .distExe id ts => (id, ts) ∈ w.decided
  | .distExeAck id _ _ _ => w.IsDecided id
  | .sendOutput id _ => ∀ c ∈ w.submitted, c.id = id → w.IsDecided id
  | .handleIRT id _ _ => ∀ c ∈ w.submitted, c.id ≠ id
  | .prepareIRT id _ _ => ∀ c ∈ w.submitted, c.id ≠ id
  | .irtAck id _ _ => ∀ c ∈ w.submitted, c.id ≠ id
  | .notiCRT _ _ _ | .piggy _ _ _ _ | .notiCommit _ _ | .tick _ | .check => True

instance (w : World) (x : ℕ) : (e : Event) → Decidable (G.Sendable w x e)
  | .submitCRT .. => isFalse fun h => h
  | .remotePrepared .. | .prepareCRT .. => inferInstanceAs (Decidable (_ ∈ w.issued))
  | .distExe .. => inferInstanceAs (Decidable (_ ∈ w.decided))
  | .distExeAck .. => inferInstanceAs (Decidable (_ ∈ w.decided.map fst))
  | .sendOutput id _ => inferInstanceAs (Decidable
      (∀ c ∈ w.submitted, c.id = id → id ∈ w.decided.map fst))
  | .handleIRT .. | .prepareIRT .. | .irtAck .. =>
      inferInstanceAs (Decidable (∀ c ∈ w.submitted, c.id ≠ _))
  | .notiCRT .. | .piggy .. | .notiCommit .. | .tick .. | .check => isTrue trivial

/-- The decisions that a step of site `x` has made, of the transactions submitted there. -/
def decisions (w : World) (x : ℕ) (s : Sched) : List (ℕ × ChrTs) :=
  (w.submitted.filter fun c => c.site = x ∧ Sched.Decided (w.sites x) s c.id).map fun c =>
    (c.id, (s.record (G.site x) c.id).ts)

/-- One step. A transaction is submitted once, and each manager it is sent to answers it once. -/
def worldStep (w : World) : WorldEvent → Option World
  | .submit x id cmdsByRegion now =>
    if (∀ c ∈ w.submitted, c.id ≠ id) ∧ (w.sites x).dtxns.find id = none then
      (step (G.site x) (w.sites x) (.submitCRT id cmdsByRegion now)).map fun s =>
        (w.setSite x s).addSubmitted ⟨id, x, cmdsByRegion, ((w.sites x).clock.generate now).1⟩
    else none
  | .issue c region now =>
    if c ∈ w.submitted ∧ (∃ cmds ∈ c.cmdsByRegion.find region, G.Verified region cmds) ∧
        ∀ i ∈ w.issued, ¬ (i.id = c.id ∧ i.region = region) then
      let r := (w.mgrs region).prepareCRT (G.mgrSiteId region) c.srcTs now
      some ((w.setMgr region r.2).addIssued ⟨c.id, region, r.1⟩)
    else none
  | .notiWait region originalTs newTs =>
    some (w.setMgr region ((w.mgrs region).notiWait originalTs newTs))
  | .event x e =>
    if G.Sendable w x e then (step (G.site x) (w.sites x) e).map fun s =>
      (w.setSite x s).addDecided (G.decisions w x s)
    else none

/-- Everything as it is constructed. A manager is hosted by some site; the offsets are not
    initialised. -/
def newWorld (host : ℕ → ℕ) (offset mgrOffset : ℕ → ℤ) : World where
  sites x := newSched (G.site x) (offset x)
  mgrs r := { clock := { siteId := host r, clockOffset := mgrOffset r } }

end Geo

/-! ### What has been issued -/

/-- The timestamps issued are the managers' own and all different, one for each transaction and region
    asked; each is later than the source timestamp. -/
structure IssuedOnce (G : Geo) (w : World) : Prop where
  fit : ∀ r, (w.mgrs r).Fit (G.mgrSiteId r)
  bound : ∀ i ∈ w.issued, i.ts ≤ (w.mgrs i.region).maxFutureTs
  pos : ∀ i ∈ w.issued, {} < i.ts
  own : ∀ i ∈ w.issued, i.ts.siteId = G.mgrSiteId i.region
  distinct : (w.issued.map Anticipated.ts).Nodup
  once : (w.issued.map fun i => (i.id, i.region)).Nodup
  ids : (w.submitted.map Crt.id).Nodup
  source : ∀ i ∈ w.issued, ∃ c ∈ w.submitted, c.id = i.id ∧ c.srcTs < i.ts ∧
    ∃ par ∈ allPars c.cmdsByRegion, par / G.nShard = i.region

section Issued

variable {G : Geo} {w : World}

theorem IssuedOnce.eq_of_ts (h : IssuedOnce G w) {i j : Anticipated} (hi : i ∈ w.issued)
    (hj : j ∈ w.issued) (hts : i.ts = j.ts) : i = j :=
  inj_on_of_nodup_map h.distinct hi hj hts

theorem IssuedOnce.eq_of_region (h : IssuedOnce G w) {i j : Anticipated} (hi : i ∈ w.issued)
    (hj : j ∈ w.issued) (hid : i.id = j.id) (hregion : i.region = j.region) : i = j :=
  inj_on_of_nodup_map h.once hi hj (Prod.ext hid hregion)

theorem IssuedOnce.eq_of_id (h : IssuedOnce G w) {c c' : Crt} (hc : c ∈ w.submitted)
    (hc' : c' ∈ w.submitted) (hid : c.id = c'.id) : c = c' :=
  inj_on_of_nodup_map h.ids hc hc' hid

theorem IssuedOnce.congr {w' : World} (h : IssuedOnce G w) (hm : w'.mgrs = w.mgrs)
    (hi : w'.issued = w.issued) (hs : w'.submitted = w.submitted) : IssuedOnce G w' := by
  obtain ⟨sites, mgrs, submitted, issued, decided⟩ := w'
  cases hm
  cases hi
  cases hs
  exact ⟨h.fit, h.bound, h.pos, h.own, h.distinct, h.once, h.ids, h.source⟩

section
variable (h : IssuedOnce G w)
include h

theorem IssuedOnce.fit_setMgr {r : ℕ} {m : Manager}
    (hm : m.Fit (G.mgrSiteId r)) (r' : ℕ) : ((w.setMgr r m).mgrs r').Fit (G.mgrSiteId r') :=
  (forall_update_iff w.mgrs fun r m => m.Fit (G.mgrSiteId r)).mpr
    ⟨hm, fun r' _ => h.fit r'⟩ r'

theorem IssuedOnce.bound_setMgr {r : ℕ} {m : Manager}
    (hm : (w.mgrs r).maxFutureTs ≤ m.maxFutureTs) (i : Anticipated) (hi : i ∈ w.issued) :
    i.ts ≤ ((w.setMgr r m).mgrs i.region).maxFutureTs := by
  have hraised : ∀ r', (w.mgrs r').maxFutureTs ≤ ((w.setMgr r m).mgrs r').maxFutureTs :=
    (forall_update_iff w.mgrs fun r m => (w.mgrs r).maxFutureTs ≤ m.maxFutureTs).mpr
      ⟨hm, fun _ _ => le_rfl⟩
  exact (h.bound i hi).trans (hraised i.region)

theorem IssuedOnce.submit {c : Crt} (hc : ∀ c' ∈ w.submitted, c'.id ≠ c.id)
    (x : ℕ) (s : Sched) : IssuedOnce G ((w.setSite x s).addSubmitted c) := by
  refine ⟨h.fit, h.bound, h.pos, h.own, h.distinct, h.once, nodup_map_concat h.ids hc, fun i hi => ?_⟩
  obtain ⟨c', hc', hrest⟩ := h.source i hi
  exact ⟨c', mem_append_left _ hc', hrest⟩

theorem IssuedOnce.notiWait (r : ℕ) (originalTs : ChrTs) (newTs : Option ChrTs) :
    IssuedOnce G (w.setMgr r ((w.mgrs r).notiWait originalTs newTs)) :=
  ⟨h.fit_setMgr ((h.fit r).notiWait originalTs newTs), h.bound_setMgr le_rfl, h.pos, h.own, h.distinct,
    h.once, h.ids, h.source⟩

theorem IssuedOnce.issue {c : Crt} {r : ℕ} (now : ℤ) (hc : c ∈ w.submitted)
    (hpar : ∃ par ∈ allPars c.cmdsByRegion, par / G.nShard = r)
    (hnew : ∀ i ∈ w.issued, ¬ (i.id = c.id ∧ i.region = r)) :
    let a := (w.mgrs r).prepareCRT (G.mgrSiteId r) c.srcTs now
    IssuedOnce G ((w.setMgr r a.2).addIssued ⟨c.id, r, a.1⟩) := by
  intro a
  obtain ⟨hfit, hmax, hlt, hsrc, hpos, hsite⟩ := Manager.prepareCRT_spec (h.fit r) c.srcTs now
  -- what a manager has issued before is smaller, what another has issued is not its own
  have hother : ∀ i ∈ w.issued, i.ts ≠ a.1 := by
    intro i hi heq
    have hregion : i.region = r := by
      have hown := h.own i hi
      rw [heq, hsite, Geo.mgrSiteId, Geo.mgrSiteId] at hown
      exact (Nat.add_left_cancel hown).symm
    have hbound := h.bound i hi
    rw [hregion, heq] at hbound
    exact absurd hlt hbound.not_gt
  refine ⟨h.fit_setMgr hfit, forall_mem_concat (h.bound_setMgr (hmax ▸ hlt.le)) ?_,
    forall_mem_concat h.pos hpos, forall_mem_concat h.own hsite, nodup_map_concat h.distinct hother,
    nodup_map_concat h.once fun i hi heq => hnew i hi (mk.inj heq), h.ids,
    forall_mem_concat h.source ⟨c, hc, rfl, hsrc, hpar⟩⟩
  show a.1 ≤ (update w.mgrs r a.2 r).maxFutureTs
  rw [update_self, hmax]

end

end Issued

/-! ### What the coordinator has been told -/

/-- Every partition's region has told its timestamp. -/
def Covered (G : Geo) (c : Crt) (d : TxChronos) : Prop :=
  ∀ par ∈ allPars c.cmdsByRegion, (d.anticipatedTs.find (par / G.nShard)).isSome

/-- Each partition has a status, and the region of one that is prepared has told its timestamp. -/
def Prepares (G : Geo) (c : Crt) (d : TxChronos) : Prop :=
  ∀ par ∈ allPars c.cmdsByRegion, ∃ st, d.distPartitionStatus.find par = some st ∧
    (DistPartStatus.remotePrepared.rank ≤ st.rank →
      (d.anticipatedTs.find (par / G.nShard)).isSome)

/-- A transaction that has not been decided on. -/
structure Waiting (G : Geo) (w : World) (c : Crt) (d : TxChronos) : Prop where
  undecided : ¬ w.IsDecided c.id
  phase : d.chrPhase = .distRemoteSent
  prepares : Prepares G c d

/-- The coordinator has been told timestamps that were issued; all of them, or it has not decided. -/
structure Tracked (G : Geo) (w : World) (c : Crt) (d : TxChronos) : Prop where
  issued : ∀ r ts, d.anticipatedTs.find r = some ts → ⟨c.id, r, ts⟩ ∈ w.issued
  progress : Waiting G w c d ∨ Covered G c d

/-- The timestamp is the largest one issued for the transaction. -/
structure Outcome (w : World) (id : ℕ) (ts : ChrTs) : Prop where
  mem : ∃ i ∈ w.issued, i.id = id ∧ i.ts = ts
  le : ∀ i ∈ w.issued, i.id = id → i.ts ≤ ts

section Coordinator

variable {G : Geo} {w : World} {c : Crt} {d d' : TxChronos} {s s' : Sched} {e : Event}

theorem foldl_larger : ∀ (l : List (ℕ × ChrTs)) (m : ChrTs),
    m ≤ l.foldl (fun m e => if m < e.2 then e.2 else m) m ∧
    (∀ e ∈ l, e.2 ≤ l.foldl (fun m e => if m < e.2 then e.2 else m) m) ∧
    (l.foldl (fun m e => if m < e.2 then e.2 else m) m = m ∨
      ∃ e ∈ l, l.foldl (fun m e => if m < e.2 then e.2 else m) m = e.2)
  | [], m => ⟨le_rfl, forall_mem_nil _, .inl rfl⟩
  | a :: l, m => by
    obtain ⟨hle, hall, hmem⟩ := foldl_larger l (if m < a.2 then a.2 else m)
    have hstep : m ≤ (if m < a.2 then a.2 else m) ∧ a.2 ≤ (if m < a.2 then a.2 else m) := by
      split
      · next h => exact ⟨h.le, le_rfl⟩
      · next h => exact ⟨le_rfl, not_lt.mp h⟩
    rw [foldl_cons]
    refine ⟨hstep.1.trans hle, forall_mem_cons.mpr ⟨hstep.2.trans hle, hall⟩, ?_⟩
    rcases hmem with heq | ⟨e, he, heq⟩
    · rw [heq]
      split
      · exact .inr ⟨a, mem_cons_self, rfl⟩
      · exact .inl rfl
    · exact .inr ⟨e, mem_cons_of_mem a he, heq⟩

theorem outcome_of_covered (h : IssuedOnce G w) (hc : c ∈ w.submitted)
    (hissued : ∀ r ts, d.anticipatedTs.find r = some ts → ⟨c.id, r, ts⟩ ∈ w.issued)
    (hcov : Covered G c d) {r : ℕ} (hr : (d.anticipatedTs.find r).isSome) :
    Outcome w c.id d.maxAnticipatedTs := by
  obtain ⟨-, hall, hmem⟩ := foldl_larger d.anticipatedTs.entries {}
  have hle : ∀ {r ts}, d.anticipatedTs.find r = some ts → ts ≤ d.maxAnticipatedTs :=
    fun hfind => hall _ (find_eq_some.mp hfind)
  refine ⟨?_, fun i hi hid => ?_⟩
  · rcases hmem with heq | ⟨e, he, heq⟩
    · -- what has been issued is larger than the timestamp the maximum begins with
      obtain ⟨ts, hts⟩ := isSome_iff_exists.mp hr
      exact absurd ((h.pos _ (hissued r ts hts)).trans_le (hle hts)) (heq ▸ lt_irrefl _)
    · exact ⟨_, hissued e.1 e.2 (find_eq_some.mpr he), rfl, heq.symm⟩
  · obtain ⟨c', hc', hid', -, par, hpar, hregion⟩ := h.source i hi
    obtain rfl : c' = c := h.eq_of_id hc' hc (hid'.trans hid)
    obtain ⟨ts, hts⟩ := isSome_iff_exists.mp (hcov par hpar)
    rw [hregion] at hts
    rw [h.eq_of_region hi (hissued _ ts hts) hid rfl]
    exact hle hts

theorem Tracked.mono {w' : World} (h : Tracked G w c d) (hi : ∀ i ∈ w.issued, i ∈ w'.issued)
    (hdec : ¬ w.IsDecided c.id → ¬ w'.IsDecided c.id) : Tracked G w' c d :=
  ⟨fun r ts hr => hi _ (h.issued r ts hr),
    h.progress.imp_left fun hw => ⟨hdec hw.undecided, hw.phase, hw.prepares⟩⟩

theorem Outcome.congr {w' : World} {id : ℕ} {ts : ChrTs} (h : Outcome w id ts)
    (hi : w'.issued = w.issued) : Outcome w' id ts := by
  refine ⟨?_, ?_⟩
  · rw [hi]
    exact h.mem
  · rw [hi]
    exact h.le

theorem Covered.congr (h : Covered G c d) (hmap : d'.anticipatedTs = d.anticipatedTs) :
    Covered G c d' := fun par hpar => hmap ▸ h par hpar

/-- What a step of the coordinator's site leaves of the transaction. -/
structure Followed (G : Geo) (w : World) (c : Crt) (s s' : Sched) (d' : TxChronos) : Prop where
  find : s'.dtxns.find c.id = some d'
  issued : ∀ r ts, d'.anticipatedTs.find r = some ts → ⟨c.id, r, ts⟩ ∈ w.issued
  decided : Sched.Decided s s' c.id → Covered G c d' ∧
    ((c.id, d'.ts) ∈ w.decided ∨ Outcome w c.id d'.ts)
  progress : ¬ Sched.Decided s s' c.id → Waiting G w c d' ∨ Covered G c d'

theorem decided_find (hd : s.dtxns.find c.id = some d) (hd' : s'.dtxns.find c.id = some d') :
    Sched.Decided s s' c.id ↔ d.chrPhase = .distRemoteSent ∧ d'.chrPhase = .distCanExe := by
  rw [Sched.Decided, phaseOf, phaseOf, hd, hd', map_some, map_some,
    some_inj, some_inj]

theorem Followed.quiet (ht : Tracked G w c d) (hd : s.dtxns.find c.id = some d)
    (hd' : s'.dtxns.find c.id = some d') (hmap : d'.anticipatedTs = d.anticipatedTs)
    (hcov : Covered G c d)
    (hphase : d.chrPhase = .distRemoteSent → d'.chrPhase ≠ .distCanExe) : Followed G w c s s' d' where
  find := hd'
  issued := hmap ▸ ht.issued
  decided h := by
    obtain ⟨hbefore, hafter⟩ := (decided_find hd hd').mp h
    exact absurd hafter (hphase hbefore)
  progress _ := .inr (hcov.congr hmap)

theorem followed_other (ht : Tracked G w c d) (hd : s.dtxns.find c.id = some d)
    (he : e.subject ≠ some c.id) {site : Site} (hs : step site s e = some s') :
    ¬ Sched.Decided s s' c.id ∧ ∃ d', s'.dtxns.find c.id = some d' ∧ Tracked G w c d' := by
  rcases Classical.em (d.chrPhase = .distRemoteSent) with hphase | hphase
  · have hrank : d.chrPhase.rank < phaseCanExe := by
      rw [hphase]
      decide
    have hd' := (step_aside he hd hrank hs).record.trans hd
    refine ⟨fun h => ?_, d, hd', ht⟩
    obtain ⟨-, hafter⟩ := (decided_find hd hd').mp h
    cases hphase.symm.trans hafter
  · have hclaims : e.claims ≠ some c.id := fun h => he (e.subject_of_claims h)
    obtain ⟨d', hd', -, hmap⟩ := step_unclaimed hclaims hs hd
    refine ⟨fun h => hphase ((decided_find hd hd').mp h).1, d', hd', hmap ▸ ht.issued, .inr ?_⟩
    exact (ht.progress.resolve_left fun h => hphase h.phase).congr hmap

/-- A region's timestamp is told, and perhaps it is the last one. -/
theorem followed_advanced {par : ℕ} {ts : ChrTs} {d1 : TxChronos} {t : Sched} (h : IssuedOnce G w)
    (hc : c ∈ w.submitted) (ht : Tracked G w c d) (hd : s.dtxns.find c.id = some d)
    (hts : ⟨c.id, par / G.nShard, ts⟩ ∈ w.issued) (hrep : Sched.Reported (par / G.nShard) ts d d1)
    (hadv : Sched.Advanced c.id par d1 t s') : ∃ d', Followed G w c s s' d' := by
  have hissued : ∀ r ts', d1.anticipatedTs.find r = some ts' → ⟨c.id, r, ts'⟩ ∈ w.issued := by
    intro r ts' hr
    rw [hrep.anticipated, find_set] at hr
    split at hr
    · next heq =>
      rw [heq, ← some.inj hr]
      exact hts
    · exact ht.issued r ts' hr
  have htold : (d1.anticipatedTs.find (par / G.nShard)).isSome := by
    rw [hrep.anticipated, find_set_self]
    rfl
  have hmore : ∀ r, (d.anticipatedTs.find r).isSome → (d1.anticipatedTs.find r).isSome := by
    intro r hr
    rw [hrep.anticipated, find_set]
    split
    · rfl
    · exact hr
  -- a status that is new is the one of the partition that has just told its region's timestamp
  have hprepares : ∀ {d'}, Sched.Noted par d1 d' → Prepares G c d → Prepares G c d' := by
    intro d' hn hp par' hpar'
    obtain ⟨st, hst, hrank⟩ := hp par' hpar'
    obtain ⟨st', hst'⟩ := isSome_iff_exists.mp
      (hn.known par' (isSome_iff_exists.mpr ⟨st, hrep.status ▸ hst⟩))
    refine ⟨st', hst', fun hst'rank => ?_⟩
    rw [hn.anticipated]
    rcases hn.status par' st' hst' with rfl | hold
    · exact htold
    · rw [hrep.status, hst] at hold
      exact hmore _ (hrank (some.inj hold ▸ hst'rank))
  have hcovers : ∀ {d'}, Sched.Noted par d1 d' → Covered G c d → Covered G c d' := by
    intro d' hn hcov par' hpar'
    rw [hn.anticipated]
    exact hmore _ (hcov par' hpar')
  cases hadv with
  | noted d' kept phase eq =>
    subst eq
    have hd' : (t.put c.id d').dtxns.find c.id = some d' := Dict.find_set_self _ _ _
    have hsame : d'.chrPhase = d.chrPhase := phase.trans hrep.phase
    refine ⟨d', hd', kept.anticipated ▸ hissued, fun hdec => ?_, fun _ => ?_⟩
    · obtain ⟨hbefore, hafter⟩ := (decided_find hd hd').mp hdec
      cases hbefore.symm.trans (hsame.symm.trans hafter)
    · rcases ht.progress with hw | hcov
      · exact .inl ⟨hw.undecided, hsame.trans hw.phase, hprepares kept hw.prepares⟩
      · exact .inr (hcovers kept hcov)
  | decided d' kept phase sent hts' all free cl ms eq =>
    subst eq
    have hcov : Covered G c d' := by
      rcases ht.progress with hw | hcov
      · intro par' hpar'
        obtain ⟨st, hst, hrank⟩ := hprepares kept hw.prepares par' hpar'
        exact hrank (of_decide_eq_true
          (all_eq_true.mp all (par', st) (find_eq_some.mp hst)))
      · exact hcovers kept hcov
    have hmax : d'.maxAnticipatedTs = d1.maxAnticipatedTs := by
      rw [TxChronos.maxAnticipatedTs, kept.anticipated]
      rfl
    refine ⟨d', Dict.find_set_self _ _ _, kept.anticipated ▸ hissued,
      fun _ => ⟨hcov, .inr ?_⟩, fun _ => .inr hcov⟩
    rw [hts', ← hmax]
    exact outcome_of_covered h hc (kept.anticipated ▸ hissued) hcov (kept.anticipated ▸ htold)

/-- Every event of the coordinator's site. -/
theorem followed_step (h : IssuedOnce G w) (hc : c ∈ w.submitted) (ht : Tracked G w c d)
    (hd : s.dtxns.find c.id = some d) (hok : G.Sendable w c.site e)
    (hs : step (G.site c.site) s e = some s') : ∃ d', Followed G w c s s' d' := by
  -- once it has been decided on, all regions have told their timestamps
  have hcov : w.IsDecided c.id → Covered G c d :=
    fun hdec => ht.progress.resolve_left fun hw => hw.undecided hdec
  rcases Classical.em (e.subject = some c.id) with hsub | hsub
  · cases e with
    | remotePrepared id par target shardManager ts now =>
      obtain rfl : id = c.id := some.inj hsub
      obtain ⟨d1, hrep, -, hadv⟩ := remotePrepared_eq hs
      rw [record_of_find hd, G.shard] at hrep
      exact followed_advanced h hc ht hd hok hrep hadv
    | prepareCRT id cmds req now =>
      obtain rfl : id = c.id := some.inj hsub
      obtain ⟨-, hprep⟩ := prepareCRT_prepared hs
      cases hprep with
      | coordinator d0 d1 find phase reported advanced =>
        obtain rfl : d = d0 := some.inj (hd.symm.trans find)
        rw [G.shard] at reported
        exact followed_advanced h hc ht hd hok reported advanced
      | known d0 find phase eq =>
        obtain rfl : d = d0 := some.inj (hd.symm.trans find)
        subst eq
        refine ⟨_, Followed.quiet ht hd (Dict.find_set_self _ _ _) ?_
          (ht.progress.resolve_left fun hw => phase hw.phase) fun hp => absurd hp phase⟩
        split <;> rfl
      | new find ms eq => cases find.symm.trans hd
    | distExe id ts =>
      obtain rfl : id = c.id := some.inj hsub
      have hdec : w.IsDecided c.id := mem_map.mpr ⟨(c.id, ts), hok, rfl⟩
      obtain ⟨hnone, -⟩ | ⟨d1, cl, ms, hd1, -, rfl⟩ := distExe_eq hs
      · cases hnone.symm.trans hd
      · obtain rfl : d = d1 := some.inj (hd.symm.trans hd1)
        obtain ⟨o, ho⟩ := answer_frame (d.decide ts) (d.regionHandler = (G.site c.site).siteId)
        rw [ho]
        exact ⟨_, Dict.find_set_self _ _ _, ht.issued, fun _ => ⟨hcov hdec, .inl hok⟩,
          fun _ => .inr (hcov hdec)⟩
    | sendOutput id values =>
      obtain rfl : id = c.id := some.inj hsub
      obtain rfl := some.inj hs
      obtain ⟨hnone, -⟩ | ⟨d1, cl, ms, hd1, heq⟩ := sendOutput_eq (G.site c.site) c.id values s
      · cases hnone.symm.trans hd
      · obtain rfl : d = d1 := some.inj (hd.symm.trans hd1)
        rw [heq]
        exact ⟨_, Followed.quiet ht hd (Dict.find_set_self _ _ _) rfl (hcov (hok c hc rfl))
          fun hp hp' => by cases hp.symm.trans hp'⟩
    | distExeAck id par leads output =>
      obtain rfl : id = c.id := some.inj hsub
      obtain rfl | ⟨phase, status, hphase, honly⟩ := distExeAck_only hs
      · exact ⟨d, Followed.quiet ht hd hd rfl (hcov hok) fun hp hp' => by cases hp.symm.trans hp'⟩
      · rw [record_of_find hd] at hphase honly
        refine ⟨_, Followed.quiet ht hd ((honly.find c.id).trans (if_pos rfl)) rfl (hcov hok)
          fun hp hp' => ?_⟩
        have hp' : phase = .distCanExe := hp'
        rcases hphase with heq | heq
        · cases hp.symm.trans (heq.symm.trans hp')
        · cases heq.symm.trans hp'
    | notiCRT id ts touched =>
      obtain rfl : id = c.id := some.inj hsub
      obtain ⟨hnone, -⟩ := ite_none_right_eq_some.mp hs
      cases hnone.symm.trans hd
    | handleIRT id | prepareIRT id | irtAck id =>
      exact absurd (some.inj hsub).symm (hok c hc)
    | submitCRT => exact hok.elim
    | piggy | notiCommit | tick | check => cases hsub
  · obtain ⟨hnot, d', hd', ht'⟩ := followed_other ht hd hsub hs
    exact ⟨d', hd', ht'.issued, fun hdec => absurd hdec hnot, fun _ => ht'.progress⟩

end Coordinator

/-! ### Runs -/

/-- What holds of everything submitted, issued and decided. -/
structure Ledger (G : Geo) (w : World) : Prop where
  once : IssuedOnce G w
  tracked : ∀ c ∈ w.submitted, ∃ d, (w.sites c.site).dtxns.find c.id = some d ∧ Tracked G w c d
  submitted : ∀ a ∈ w.decided, ∃ c ∈ w.submitted, c.id = a.1
  outcome : ∀ a ∈ w.decided, Outcome w a.1 a.2

section Runs

variable {G : Geo} {w w' : World}

theorem Ledger.not_decided (h : Ledger G w) {id : ℕ} (hid : ∀ c ∈ w.submitted, c.id ≠ id) :
    ¬ w.IsDecided id := by
  intro hdec
  obtain ⟨a, ha, rfl⟩ := mem_map.mp hdec
  obtain ⟨c, hc, heq⟩ := h.submitted a ha
  exact hid c hc heq

theorem tracked_submit {x : ℕ} {s : Sched} {cmdsByRegion : OrdMap ℕ Cmds} {srcTs : ChrTs} {id : ℕ}
    (hnew : s.dtxns.find id = none) (hdec : ¬ w.IsDecided id) :
    Tracked G w ⟨id, x, cmdsByRegion, srcTs⟩
      ((s.record (G.site x) id).submitCRT (G.site x) cmdsByRegion) := by
  rw [record, hnew]
  refine ⟨fun r ts h => (by cases h), .inl ⟨hdec, rfl, fun par hpar => ⟨.remoteSent, ?_, ?_⟩⟩⟩
  · show find ((allPars cmdsByRegion).foldl (fun m par => set m par _) _) par = _
    rw [find_foldl_set, if_pos hpar]
  · exact fun h => absurd h (by decide)

theorem Ledger.submit (h : Ledger G w) {x id : ℕ} {cmdsByRegion : OrdMap ℕ Cmds} {now : ℤ}
    (hs : G.worldStep w (.submit x id cmdsByRegion now) = some w') : Ledger G w' := by
  obtain ⟨⟨hids, hnew⟩, hs⟩ := ite_none_right_eq_some.mp hs
  obtain ⟨s', hs', rfl⟩ := map_eq_some_iff.mp hs
  have hdec := h.not_decided hids
  refine ⟨h.once.submit hids x s', fun c hc => ?_, fun a ha => ?_,
    fun a ha => (h.outcome a ha).congr rfl⟩
  · show ∃ d, (update w.sites x s' c.site).dtxns.find c.id = some d ∧ _
    rcases mem_append.mp hc with hc | hc
    · obtain ⟨d, hd, ht⟩ := h.tracked c hc
      rcases eq_or_ne c.site x with rfl | hne
      · have hsub : Event.subject (.submitCRT id cmdsByRegion now) ≠ some c.id :=
          fun heq => hids c hc (some.inj heq).symm
        obtain ⟨-, d', hd', ht'⟩ := followed_other ht hd hsub hs'
        rw [update_self]
        exact ⟨d', hd', ht'.mono (fun _ hi => hi) fun hno => hno⟩
      · rw [update_of_ne hne]
        exact ⟨d, hd, ht.mono (fun _ hi => hi) fun hno => hno⟩
    · obtain rfl := mem_singleton.mp hc
      obtain ⟨ids, cl, ms, rfl⟩ := submitCRT_eq hs'
      rw [update_self]
      exact ⟨_, Dict.find_set_self _ _ _, tracked_submit hnew hdec⟩
  · obtain ⟨c, hc, heq⟩ := h.submitted a ha
    exact ⟨c, mem_append_left _ hc, heq⟩

theorem Ledger.issue (h : Ledger G w) {c : Crt} {r : ℕ} {now : ℤ}
    (hs : G.worldStep w (.issue c r now) = some w') : Ledger G w' := by
  obtain ⟨⟨hc, ⟨cmds, hcmds, hfirst, hregion⟩, hnew⟩, hs⟩ := ite_none_right_eq_some.mp hs
  obtain rfl := some.inj hs
  -- the manager has pieces for a partition of its region
  have hpar : ∃ par ∈ allPars c.cmdsByRegion, par / G.nShard = r := by
    obtain ⟨e, he, -⟩ := map_eq_some_iff.mp hfirst
    have hkey : e.1 ∈ cmds.keys := mem_map_of_mem (mem_of_head? he)
    exact ⟨e.1, mem_flatMap.mpr ⟨(r, cmds), find_eq_some.mp hcmds, hkey⟩, hregion _ hkey⟩
  -- a transaction that is decided on has had an answer of every region
  have hundecided : ¬ w.IsDecided c.id := by
    intro hdec
    obtain ⟨d, -, ht⟩ := h.tracked c hc
    obtain ⟨par, hpar, rfl⟩ := hpar
    obtain ⟨ts, hts⟩ := isSome_iff_exists.mp
      (ht.progress.resolve_left (fun hw => hw.undecided hdec) par hpar)
    exact hnew _ (ht.issued _ ts hts) ⟨rfl, rfl⟩
  refine ⟨h.once.issue now hc hpar hnew, fun c' hc' => ?_, h.submitted, fun a ha => ?_⟩
  · obtain ⟨d, hd, ht⟩ := h.tracked c' hc'
    exact ⟨d, hd, ht.mono (fun _ hi => mem_append_left _ hi) fun hno => hno⟩
  · obtain ⟨⟨i, hi, hrest⟩, hle⟩ := h.outcome a ha
    refine ⟨⟨i, mem_append_left _ hi, hrest⟩, fun j hj hid => ?_⟩
    rcases mem_append.mp hj with hj | hj
    · exact hle j hj hid
    · rw [mem_singleton.mp hj] at hid
      exact absurd (mem_map.mpr ⟨a, ha, hid.symm⟩) hundecided

theorem Ledger.event (h : Ledger G w) {x : ℕ} {e : Event}
    (hs : G.worldStep w (.event x e) = some w') : Ledger G w' := by
  obtain ⟨hok, hs⟩ := ite_none_right_eq_some.mp hs
  obtain ⟨s', hs', rfl⟩ := map_eq_some_iff.mp hs
  -- what has just been decided on was submitted at the site
  have hdecisions : ∀ a ∈ G.decisions w x s', ∃ c ∈ w.submitted, c.site = x ∧
      Sched.Decided (w.sites x) s' c.id ∧ a = (c.id, (s'.record (G.site x) c.id).ts) := by
    intro a ha
    obtain ⟨c, hc, rfl⟩ := mem_map.mp ha
    obtain ⟨hc, hcond⟩ := mem_filter.mp hc
    obtain ⟨hsite, hdec⟩ := of_decide_eq_true hcond
    exact ⟨c, hc, hsite, hdec, rfl⟩
  have hstill : ∀ c ∈ w.submitted, ¬ w.IsDecided c.id →
      (c.site = x → ¬ Sched.Decided (w.sites x) s' c.id) →
      ¬ ((w.setSite x s').addDecided (G.decisions w x s')).IsDecided c.id := by
    intro c hc hno hnot hdec
    obtain ⟨a, ha, heq⟩ := mem_map.mp hdec
    rcases mem_append.mp ha with ha | ha
    · exact hno (mem_map.mpr ⟨a, ha, heq⟩)
    · obtain ⟨c', hc', hsite, hdec', rfl⟩ := hdecisions a ha
      obtain rfl : c' = c := h.once.eq_of_id hc' hc heq
      exact hnot hsite hdec'
  refine ⟨h.once.congr rfl rfl rfl, fun c hc => ?_, fun a ha => ?_, fun a ha => ?_⟩
  · show ∃ d, (update w.sites x s' c.site).dtxns.find c.id = some d ∧ _
    obtain ⟨d, hd, ht⟩ := h.tracked c hc
    rcases eq_or_ne c.site x with rfl | hne
    · obtain ⟨d', hf⟩ := followed_step h.once hc ht hd hok hs'
      rw [update_self]
      refine ⟨d', hf.find, hf.issued, ?_⟩
      rcases Classical.em (Sched.Decided (w.sites c.site) s' c.id) with hdec | hdec
      · exact .inr (hf.decided hdec).1
      · refine (hf.progress hdec).imp_left fun hw => ⟨?_, hw.phase, hw.prepares⟩
        exact hstill c hc hw.undecided fun _ => hdec
    · rw [update_of_ne hne]
      exact ⟨d, hd, ht.mono (fun _ hi => hi) fun hno => hstill c hc hno fun hsite => absurd hsite hne⟩
  · rcases mem_append.mp ha with ha | ha
    · exact h.submitted a ha
    · obtain ⟨c, hc, -, -, rfl⟩ := hdecisions a ha
      exact ⟨c, hc, rfl⟩
  · have hout : Outcome w a.1 a.2 := by
      rcases mem_append.mp ha with ha | ha
      · exact h.outcome a ha
      · obtain ⟨c, hc, rfl, hdec, rfl⟩ := hdecisions a ha
        obtain ⟨d, hd, ht⟩ := h.tracked c hc
        obtain ⟨d', hf⟩ := followed_step h.once hc ht hd hok hs'
        rw [record_of_find hf.find]
        rcases (hf.decided hdec).2 with hold | hnew
        · exact h.outcome _ hold
        · exact hnew
    exact hout.congr rfl

theorem worldStep_ledger (w : World) (e : WorldEvent) (w' : World) (h : Ledger G w)
    (hs : G.worldStep w e = some w') : Ledger G w' := by
  cases e with
  | submit x id cmdsByRegion now => exact h.submit hs
  | issue c region now => exact h.issue hs
  | event x e => exact h.event hs
  | notiWait region originalTs newTs =>
    obtain rfl := some.inj hs
    refine ⟨h.once.notiWait region originalTs newTs, fun c hc => ?_, h.submitted,
      fun a ha => (h.outcome a ha).congr rfl⟩
    obtain ⟨d, hd, ht⟩ := h.tracked c hc
    exact ⟨d, hd, ht.mono (fun _ hi => hi) fun hno => hno⟩

theorem newWorld_ledger (host : ℕ → ℕ) (offset mgrOffset : ℕ → ℤ) :
    Ledger G (G.newWorld host offset mgrOffset) where
  once := ⟨fun _ => ⟨le_rfl, .inl rfl⟩, forall_mem_nil _,
    forall_mem_nil _, forall_mem_nil _, nodup_nil,
    nodup_nil, nodup_nil, forall_mem_nil _⟩
  tracked := forall_mem_nil _
  submitted := forall_mem_nil _
  outcome := forall_mem_nil _

end Runs

/-- No two transactions are decided at one timestamp; a decision is not below any timestamp that was
    issued for its transaction, and above the source timestamp. -/
structure Decisive (w : World) : Prop where
  unique : ∀ a ∈ w.decided, ∀ b ∈ w.decided, a.2 = b.2 → a.1 = b.1
  dominates : ∀ a ∈ w.decided, ∀ i ∈ w.issued, i.id = a.1 → i.ts ≤ a.2
  source : ∀ a ∈ w.decided, ∀ c ∈ w.submitted, c.id = a.1 → c.srcTs < a.2

theorem Ledger.decisive {G : Geo} {w : World} (h : Ledger G w) : Decisive w where
  unique a ha b hb heq := by
    obtain ⟨i, hi, hid, hts⟩ := (h.outcome a ha).mem
    obtain ⟨j, hj, hid', hts'⟩ := (h.outcome b hb).mem
    rw [← hid, ← hid', h.once.eq_of_ts hi hj (hts.trans (heq.trans hts'.symm))]
  dominates a ha := (h.outcome a ha).le
  source a ha c hc hid := by
    obtain ⟨i, hi, hid', hts⟩ := (h.outcome a ha).mem
    obtain ⟨c', hc', hci, hlt, -⟩ := h.once.source i hi
    rw [h.once.eq_of_id hc hc' (hid.trans (hid'.symm.trans hci.symm)), ← hts]
    exact hlt

/-- In every run of any number of regions the decisions are decisive. -/
theorem decisive_run (G : Geo) (host : ℕ → ℕ) (offset mgrOffset : ℕ → ℤ) (es : List WorldEvent) :
    Throughout G.worldStep Decisive (G.newWorld host offset mgrOffset) es := by
  refine throughout_mono (fun _ hs => Ledger.decisive hs) (throughout_of_inv (C := fun _ _ => True)
    (fun w e w' h _ hs => worldStep_ledger w e w' h hs) (newWorld_ledger host offset mgrOffset) ?_)
  exact along_true _ es

/-- Regions of one partition with one site each. -/
def lineGeo : Geo where
  site x :=
    { threeSite with
      siteId := x
      parId := x
      nReplicas := 1
      myRid := x
      others := []
      sitesOf := fun par => [par] }
  nShard := 1
  numSites := 2
  shard _ := rfl

/-- A piece for each of the two partitions. -/
def bothRegions : OrdMap ℕ Cmds :=
  (OrdMap.set {} 0 (pieceFor 0)).set 1 (pieceFor 1)

/-- Transaction 1 comes first at the manager of region 0, transaction 2 at the one of region 1. -/
def crossingRun : List WorldEvent :=
  let c1 : Crt := ⟨1, 0, bothRegions, ⟨10, 10, 0⟩⟩
  let c2 : Crt := ⟨2, 1, bothRegions, ⟨12, 12, 1⟩⟩
  [.submit 0 1 bothRegions 10, .submit 1 2 bothRegions 12, .issue c1 0 20, .issue c2 0 20,
    .issue c2 1 15, .issue c1 1 15,
    .event 0 (.prepareCRT 1 [plainPiece] ⟨⟨90020, 0, 2⟩, 0, 0, 1⟩ 30),
    .event 0 (.remotePrepared 1 1 1 1 ⟨90016, 0, 3⟩ 31),
    .event 1 (.prepareCRT 2 [plainPiece] ⟨⟨90015, 0, 3⟩, 1, 1, 1⟩ 30),
    .event 1 (.remotePrepared 2 0 0 0 ⟨90021, 0, 2⟩ 31)]

theorem decisive_run_crossing :
    (run lineGeo.worldStep (lineGeo.newWorld id (fun _ => 0) fun _ => 0) crossingRun).map
      World.decided = some [(1, ⟨90020, 0, 2⟩), (2, ⟨90021, 0, 2⟩)] ∧
    Throughout lineGeo.worldStep Decisive (lineGeo.newWorld id (fun _ => 0) fun _ => 0) crossingRun :=
  ⟨by decide, decisive_run lineGeo id (fun _ => 0) (fun _ => 0) crossingRun⟩

end Fiss.Chronos
