import Fiss.Chronos.Steps

/-! What an event leaves alone of the transactions it is not about: their records, and
    their places in `ready_txns_`. What a site has counted for a transaction, the acknowledgements and
    the anticipated timestamps, changes only with the events that claim it. -/

namespace Fiss.Chronos
open Fiss.Rcc Option

/-! ### Events of other transactions -/

/-- The record of a transaction is left alone, and it is entered nowhere. -/
structure Aside (id : ℕ) (s s' : Sched) : Prop where
  record : s'.dtxns.find id = s.dtxns.find id
  ready : ∀ k, s'.readyTxns.find k = some id → s.readyTxns.find k = some id

section Aside

variable {site : Site} {id x : ℕ} {d d' : TxChronos} {ts : ChrTs} {s s' t : Sched}

theorem Aside.refl (id : ℕ) (s : Sched) : Aside id s s := ⟨rfl, fun _ h => h⟩

theorem Aside.trans (h : Aside id s t) (h' : Aside id t s') : Aside id s s' :=
  ⟨h'.record.trans h.record, fun k hk => h.ready k (h'.ready k hk)⟩

theorem Aside.put (hne : id ≠ x) (d' : TxChronos) (s : Sched) : Aside id s (s.put x d') :=
  ⟨Dict.find_set_ne s.dtxns hne d', fun _ h => h⟩

theorem Aside.setReady (hne : id ≠ x) (ts : ChrTs) (s : Sched) : Aside id s (s.setReady ts x) := by
  refine ⟨rfl, fun k hk => ?_⟩
  rw [Sched.setReady, OrdMap.find_set] at hk
  split at hk
  · exact absurd (some.inj hk).symm hne
  · exact hk

theorem Aside.eraseReady (id : ℕ) (ts : ChrTs) (s : Sched) : Aside id s (s.eraseReady ts) := by
  refine ⟨rfl, fun k hk => ?_⟩
  rw [Sched.eraseReady, OrdMap.find_erase] at hk
  split at hk
  · cases hk
  · exact hk

theorem notify_aside (site : Site) (info : ChrTxnInfo) (hd : s.dtxns.find id = some d) :
    Aside id s (Sched.notify site s info) := by
  unfold Sched.notify
  split
  · next hnone =>
    have hne : id ≠ info.txnId := fun h => by cases (h ▸ hnone).symm.trans hd
    exact (Aside.put hne _ s).trans (Aside.setReady hne info.ts _)
  · exact Aside.refl id s

theorem foldl_notify_aside (site : Site) : ∀ (infos : List ChrTxnInfo) {s : Sched},
    s.dtxns.find id = some d → Aside id s (infos.foldl (Sched.notify site) s)
  | [], s, _ => Aside.refl id s
  | info :: infos, s, hd => by
    have hnext := notify_aside site info hd
    exact hnext.trans (foldl_notify_aside site infos (hnext.record.trans hd))

theorem visit_aside {done : List (ChrTs × ℕ)} {k : ChrTs} {d1 : TxChronos} {l l' : Sched.Loop}
    (hd : s.dtxns.find id = some d) (hphase : d.chrPhase.rank < phaseCanExe)
    (hv : Sched.Visit site s done k x d1 l l') (hl : Aside id s l.sched) : Aside id s l'.sched := by
  have hne : id ≠ x := by
    rintro rfl
    obtain rfl : d = d1 := some.inj ((hl.record.trans hd).symm.trans hv.find)
    exact absurd (Sched.stops_eq_false.mp hv.passes).2 hphase.not_ge
  cases hv.visited with
  | skip sched pending => exact sched ▸ hl
  | call d' removed called ready =>
    obtain ⟨fin, t, hex, -, hdtxns⟩ := called.executed
    refine hl.trans ⟨?_, fun k' hk' => ?_⟩
    · rw [hdtxns, hex.only.find, if_neg hne]
    · rw [ready] at hk'
      split at hk'
      · exact (Aside.eraseReady id k l.sched).ready k' hk'
      · exact hk'

theorem check_aside (hd : s.dtxns.find id = some d) (hphase : d.chrPhase.rank < phaseCanExe)
    (h : s.check site = some s') : Aside id s s' := by
  obtain ⟨-, l, hl, -, rfl⟩ := Sched.check_inv (J := fun _ l => Aside id s l.sched) (Aside.refl id s)
    (fun _ _ _ _ _ _ hv hl => visit_aside hd hphase hv hl) h
  exact ⟨hl.record, hl.ready⟩

/-- The events of other transactions leave one aside. -/
theorem step_aside_of_ne {e : Event} (hcheck : e ≠ .check) (he : e.subject ≠ some id)
    (hd : s.dtxns.find id = some d) (h : step site s e = some s') : Aside id s s' := by
  cases step_does hcheck h with
  | idle ran maxTs dtxns ready values => exact ⟨by rw [dtxns], fun _ hk => ready ▸ hk⟩
  | writes x d' subject wrote change pieces counts =>
    have hne : id ≠ x := fun heq => he (heq ▸ subject)
    refine ⟨?_, fun k hk => (wrote.ready k id hk).resolve_left hne⟩
    rw [wrote.find, if_neg hne]
  | notifies remoteSite remoteTs infos now event eq =>
    obtain ⟨c, w, heq⟩ := Sched.hear_eq remoteSite remoteTs now (infos.foldl (Sched.notify site) s)
    have haside := foldl_notify_aside site infos hd
    rw [eq, Sched.piggy, heq]
    exact ⟨haside.record, haside.ready⟩

theorem step_aside {e : Event} (he : e.subject ≠ some id) (hd : s.dtxns.find id = some d)
    (hphase : d.chrPhase.rank < phaseCanExe) (h : step site s e = some s') : Aside id s s' := by
  rcases Classical.em (e = .check) with rfl | hcheck
  · exact check_aside hd hphase h
  · exact step_aside_of_ne hcheck he hd h

theorem run_aside {es : List Event} (hes : ∀ e ∈ es, e.subject ≠ some id)
    (hd : s.dtxns.find id = some d) (hphase : d.chrPhase.rank < phaseCanExe)
    (h : run (step site) s es = some s') : Aside id s s' :=
  run_inv_mem (P := Aside id s) (fun _ e _ he hs ht =>
    hs.trans (step_aside (hes e he) (hs.record.trans hd) hphase ht)) (Aside.refl id s) h

/-- What is counted for a transaction changes only with the events that claim it. -/
theorem step_unclaimed {e : Event} (he : e.claims ≠ some id) (h : step site s e = some s')
    (hd : s.dtxns.find id = some d) : ∃ d', s'.dtxns.find id = some d' ∧
      d'.distPartitionAcks = d.distPartitionAcks ∧ d'.anticipatedTs = d.anticipatedTs := by
  rcases Classical.em (e = .check) with rfl | hcheck
  · obtain ⟨d', hd', hk⟩ := (check_since h).kept.find hd
    exact ⟨d', hd', hk.acks, hk.anticipated⟩
  rcases Classical.em (e.subject = some id) with hsub | hsub
  · cases step_does hcheck h with
    | idle ran maxTs dtxns ready values => exact ⟨d, dtxns ▸ hd, rfl, rfl⟩
    | writes x d' subject wrote change pieces counts =>
      obtain rfl : id = x := some.inj (hsub.symm.trans subject)
      rw [Sched.record_of_find hd] at counts
      exact ⟨d', (wrote.find id).trans (if_pos rfl), counts.resolve_left he⟩
    | notifies remoteSite remoteTs infos now event eq =>
      rw [event] at hsub
      cases hsub
  · exact ⟨d, (step_aside_of_ne hcheck hsub hd h).record.trans hd, rfl, rfl⟩

end Aside

end Fiss.Chronos
