import Fiss.Chronos.Ready
import Fiss.Chronos.Subject

/-! The two messages a participant gets about a transaction over several regions: `OnPrepareCRT` brings
    its pieces and an anticipated timestamp, `OnDistExe` the decided one. They may arrive in either
    order, with events of other transactions in between.

    If the decision comes first, the site makes an empty record and forgets the decision. The pieces
    then find a record and are dropped. -/

namespace Fiss.Chronos
open Fiss.Rcc Option OrdMap Sched

/-! ### The two orders -/

inductive Arrival where
  | prepareFirst
  | decisionFirst
  deriving DecidableEq

/-- The two messages about a transaction, with other events in between. -/
def arrivals (id : ℕ) (cmds : List SimpleCommand) (req : PrepareCRTReq) (now : ℤ) (ts : ChrTs)
    (es : List Event) : Arrival → List Event
  | .prepareFirst => .prepareCRT id cmds req now :: (es ++ [.distExe id ts])
  | .decisionFirst => .distExe id ts :: (es ++ [.prepareCRT id cmds req now])

/-- The site has not heard of the transaction. -/
structure Unknown (id : ℕ) (s : Sched) : Prop where
  record : s.dtxns.find id = none
  ready : ∀ k, s.readyTxns.find k ≠ some id

/-- The transaction is ready at the decided timestamp and nowhere else, with its pieces, and executable;
    its anticipated timestamp no longer holds the site back unless it waits for input. -/
structure Settled (id : ℕ) (cmds : List SimpleCommand) (anticipatedTs ts : ChrTs) (s : Sched) :
    Prop where
  ready : ∀ k, s.readyTxns.find k = some id ↔ k = ts
  record : ∃ d, s.dtxns.find id = some d ∧ d.pieces = cmds.map SimpleCommand.clear ∧
    d.chrPhase = .distCanExe ∧
    (d.allPiecesInputReady = false ∨ anticipatedTs ∉ s.clock.distTxnTss)

theorem newSched_unknown (site : Site) (offset : ℤ) (id : ℕ) : Unknown id (newSched site offset) :=
  ⟨rfl, fun _ h => some_ne_none id h.symm⟩

section Arrival

variable {site : Site} {id : ℕ} {cmds : List SimpleCommand} {req : PrepareCRTReq} {now : ℤ}
  {ts : ChrTs} {s s' : Sched} {es : List Event} {d : TxChronos}

theorem record_empty (site : Site) (h : s.dtxns.find id = none) :
    (s.record site id).chrPhase = .empty := by
  rw [record, h]
  rfl

theorem distExe_settled (hd : s.dtxns.find id = some d) (hpieces : d.pieces = cmds.map .clear)
    (hready : ∀ k, s.readyTxns.find k = some id → k = d.ts)
    (h : step site s (.distExe id ts) = some s') : Settled id cmds d.ts ts s' := by
  rw [step, distExe, hd] at h
  obtain ⟨-, h⟩ := ite_none_right_eq_some.mp h
  obtain rfl := some.inj h
  obtain ⟨o, ho⟩ := answer_frame (d.decide ts) (d.regionHandler = site.siteId)
  rw [ho]
  refine ⟨fun k => ?_, _, Dict.find_set_self _ _ _, hpieces, rfl, ?_⟩
  · show ((s.readyTxns.erase d.ts).set ts id).find k = some id ↔ k = ts
    rw [find_set]
    split
    · next hk => exact iff_of_true rfl hk
    · next hk =>
      refine iff_of_false (fun hfind => ?_) hk
      rw [find_erase] at hfind
      split at hfind
      · cases hfind
      · next hne => exact hne (hready k hfind)
  · show _ ∨ d.ts ∉ (d.rehold ts s.clock).distTxnTss
    cases hinput : d.allPiecesInputReady with
    | false => exact .inl hinput
    | true =>
      right
      rw [TxChronos.rehold, if_pos hinput]
      exact fun hmem => (OrdSet.mem_erase.mp hmem).2 rfl

theorem prepareFirst_settled (hs : Unknown id s) (hes : ∀ e ∈ es, e.subject ≠ some id)
    (h : run (step site) s (arrivals id cmds req now ts es .prepareFirst) = some s') :
    Settled id cmds req.anticipatedTs ts s' := by
  obtain ⟨t, ht, h⟩ := run_cons.mp h
  obtain ⟨t', ht', hlast⟩ := run_concat.mp h
  obtain ⟨-, hprep⟩ := prepareCRT_prepared ht
  cases hprep with
  | coordinator d d' find phase reported advanced => cases hs.record.symm.trans find
  | known d find phase eq => cases hs.record.symm.trans find
  | new find ms eq =>
    subst eq
    have hphase : ((s.record site id).prepareCRT cmds req).chrPhase = .empty :=
      record_empty site hs.record
    have haside := run_aside hes (Dict.find_set_self _ _ _) (by rw [hphase]; decide) ht'
    refine distExe_settled (haside.record.trans (Dict.find_set_self _ _ _)) rfl (fun k hk => ?_) hlast
    have hk := haside.ready k hk
    rw [send, setReady, find_set] at hk
    split at hk
    · next heq => exact heq
    · exact absurd hk (hs.ready k)

theorem decisionFirst_lost (hs : Unknown id s) (hes : ∀ e ∈ es, e.subject ≠ some id)
    (h : run (step site) s (arrivals id cmds req now ts es .decisionFirst) = some s') (k : ChrTs) :
    s'.readyTxns.find k ≠ some id := by
  obtain ⟨t, ht, h⟩ := run_cons.mp h
  obtain ⟨t', ht', hlast⟩ := run_concat.mp h
  obtain ⟨-, rfl⟩ | ⟨d, -, -, hd, -⟩ := distExe_eq ht
  · have hphase := record_empty site hs.record
    have haside := run_aside hes (Dict.find_set_self _ _ _) (by rw [hphase]; decide) ht'
    have hfind := haside.record.trans (Dict.find_set_self s.dtxns id (s.record site id))
    obtain ⟨-, hprep⟩ := prepareCRT_prepared hlast
    cases hprep with
    | coordinator d d' find phase reported advanced =>
      rw [some.inj (find.symm.trans hfind), hphase] at phase
      cases phase
    | known d find phase eq =>
      subst eq
      exact fun hk => hs.ready k (haside.ready k hk)
    | new find ms eq => cases find.symm.trans hfind
  · cases hs.record.symm.trans hd

end Arrival

/-- The transaction is settled exactly if its pieces arrive before the decision. -/
theorem settled_iff_prepareFirst {site : Site} {id : ℕ} {cmds : List SimpleCommand} {req : PrepareCRTReq}
    {now : ℤ} {ts : ChrTs} {s s' : Sched} {es : List Event} {order : Arrival} (hs : Unknown id s)
    (hes : ∀ e ∈ es, e.subject ≠ some id)
    (h : run (step site) s (arrivals id cmds req now ts es order) = some s') :
    Settled id cmds req.anticipatedTs ts s' ↔ order = .prepareFirst := by
  cases order with
  | prepareFirst => exact iff_of_true (prepareFirst_settled hs hes h) rfl
  | decisionFirst =>
    refine iff_of_false (fun hsettled => ?_) fun h => by cases h
    exact decisionFirst_lost hs hes h ts ((hsettled.ready ts).mpr rfl)

/-- The request of a manager: anticipated 90, decided 95 later. -/
def crtReq : PrepareCRTReq := ⟨⟨90, 0, 6⟩, 4, 0, 1⟩

theorem settled_iff_prepareFirst_run : ∃ s', run (step threeSite) (newSched threeSite 0)
    (arrivals 7 [plainPiece] crtReq 10 ⟨95, 0, 7⟩ [.check, .piggy 0 ⟨20, 20, 0⟩ [] 20] .prepareFirst) =
      some s' ∧ Settled 7 [plainPiece] crtReq.anticipatedTs ⟨95, 0, 7⟩ s' := by
  obtain ⟨s', hs'⟩ := isSome_iff_exists.mp (show (run (step threeSite) (newSched threeSite 0)
    (arrivals 7 [plainPiece] crtReq 10 ⟨95, 0, 7⟩ [.check, .piggy 0 ⟨20, 20, 0⟩ [] 20]
      .prepareFirst)).isSome by decide)
  exact ⟨s', hs', (settled_iff_prepareFirst (newSched_unknown _ _ 7) (by decide) hs').mpr rfl⟩

/-- The decision, then the pieces: the transaction is not ready, and its record has no pieces. -/
theorem decision_forgotten_run : ∃ s', run (handle threeSite) (newSched threeSite 0)
    [.distExe 7 ⟨95, 0, 7⟩, .prepareCRT 7 [plainPiece] crtReq 10] = some s' ∧
      s'.readyTxns.find ⟨95, 0, 7⟩ = none ∧ s'.phaseOf 7 = some .empty ∧
        ¬ Settled 7 [plainPiece] crtReq.anticipatedTs ⟨95, 0, 7⟩ s' := by
  have h : (run (handle threeSite) (newSched threeSite 0)
      [.distExe 7 ⟨95, 0, 7⟩, .prepareCRT 7 [plainPiece] crtReq 10]).map
        (fun s => decide (s.readyTxns.find ⟨95, 0, 7⟩ = none ∧ s.phaseOf 7 = some .empty)) =
          some true := by decide
  obtain ⟨s', hs', h⟩ := map_eq_some_iff.mp h
  obtain ⟨hready, hphase⟩ := of_decide_eq_true h
  exact ⟨s', hs', hready, hphase, fun hs => by cases hready.symm.trans ((hs.ready _).mpr rfl)⟩

end Fiss.Chronos
