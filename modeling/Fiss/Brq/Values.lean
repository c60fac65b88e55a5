import Fiss.Brq.Once
import Fiss.Rcc.Inputs

/-! Values that come to a server before the pieces they are for. `OnSendOutput` hands a value to the
    pieces the transaction has; a transaction whose pre-accept has not come has none, and the value
    is dropped. -/

namespace Fiss.Brq
open Fiss.Rcc List Dict
open Option (some.inj bind_eq_some_iff isSome_iff_exists)

/-- A message of values, with the times and the order of the walk it may start. -/
structure Delivery where
  values : Dict ℕ Value
  clock : ℕ → ℕ → ℕ := fun _ _ => 0
  layout : List ℕ := []

def deliver (site : Site) (t : ℕ) (s : Server) (m : Delivery) : Option Server :=
  onSendOutput site m.clock m.layout t m.values s

/-- The values of the messages, as they came. -/
def delivered (ms : List Delivery) : List (ℕ × Value) := ms.flatMap fun m => m.values.entries

/-- A transaction before its pre-accept and its commit. -/
structure Awaited (d : RccDTxn) : Prop where
  dreqs : d.dreqs = []
  executed : d.executed = false
  status : d.status < txnCmt

/-! ### Before the pre-accept -/

section

variable {site : Site} {t : ℕ} {s s1 : Server} {early : List Delivery}

theorem insert_insert (s : OrdSet ℕ) (a : ℕ) : (s.insert a).insert a = s.insert a := by
  ext x
  simp

theorem fetch_put : fetch site t (put t (fetch site t s) s) = fetch site t s := by
  have hfind : (put t (fetch site t s) s).dtxns.find t = some (fetch site t s) :=
    find_set_self ..
  rw [fetch, hfind, Option.getD_some]
  simp only [fetch, insert_insert]

theorem put_put (d d' : RccDTxn) : put t d (put t d' s) = put t d s := by
  simp only [put, Server.setDtxns, Dict.set_set]

theorem onSendOutput_awaited (h : (recordOf t s).dreqs = []) (clock : ℕ → ℕ → ℕ) (layout : List ℕ)
    (values : Dict ℕ Value) :
    onSendOutput site clock layout t values s = some (put t (fetch site t s) s) := by
  have hdreqs : (fetch site t s).dreqs = [] := h
  have hsame : setDreqs [] (fetch site t s) = fetch site t s := by rw [setDreqs, ← hdreqs]
  rw [onSendOutput, takeOutput]
  simp only [hdreqs, mergeCheckReadyPieces_eq, map_nil, any_nil, hsame]
  split <;> rfl

theorem onPreAcceptWoGraph_put (cmds : List SimpleCommand) :
    onPreAcceptWoGraph site t cmds (put t (fetch site t s) s) =
      onPreAcceptWoGraph site t cmds s := by
  have hset : ∀ d, (put t (fetch site t s) s).dtxns.set t d = s.dtxns.set t d := fun d =>
    set_set s.dtxns t _ d
  simp only [onPreAcceptWoGraph, preAccepted, fetch_put, hset, put_put]
  rfl

theorem onPreAcceptWoGraph_early (h : (recordOf t s).dreqs = [])
    (hr : run (deliver site t) s early = some s1) (cmds : List SimpleCommand) :
    onPreAcceptWoGraph site t cmds s1 = onPreAcceptWoGraph site t cmds s := by
  have hput : (recordOf t (put t (fetch site t s) s)).dreqs = [] := by
    rw [recordOf, show (put t (fetch site t s) s).dtxns.find t = some (fetch site t s) from
      find_set_self ..]
    exact h
  have hstates : s1 = s ∨ s1 = put t (fetch site t s) s := by
    refine run_inv (P := fun s' : Server => s' = s ∨ s' = put t (fetch site t s) s)
      (fun a m b ha hb => .inr ?_) (.inl rfl) hr
    rcases ha with rfl | rfl
    · rw [deliver, onSendOutput_awaited h] at hb
      exact (some.inj hb).symm
    · rw [deliver, onSendOutput_awaited hput, fetch_put, put_put] at hb
      exact (some.inj hb).symm
  rcases hstates with rfl | rfl
  · rfl
  · exact onPreAcceptWoGraph_put cmds

end

/-! ### The pre-accept -/

/-- The record of a transaction that was pre-accepted with the pieces `cs`, and is not committed. -/
structure Calm (cs : List SimpleCommand) (d : RccDTxn) : Prop where
  dreqs : d.dreqs = cs
  flag : d.involveFlag = .involved
  executed : d.executed = false
  status : d.status < txnCmt

section PreAccept

variable {site : Site} {t : ℕ} {s : Server} {cmds : List SimpleCommand} {w w' : Work}
  {r : Server × Option Graph}

theorem filedAt_declared {dreqs : List SimpleCommand} (h : ∀ c ∈ dreqs, c.input.Declared) (i : ℕ)
    (o : List (ℕ × Value)) : ∀ c ∈ filedAt dreqs i o, c.input.Declared := by
  intro c hc
  obtain ⟨b, hb, rfl⟩ := mem_map.mp hc
  obtain ⟨j, hj⟩ := mem_iff_getElem?.mp hb
  rw [getElem?_modify] at hj
  obtain ⟨a, ha, rfl⟩ := Option.map_eq_some_iff.mp hj
  have hdecl := h a (mem_of_getElem? ha)
  -- a mark is no input
  refine offers_declared ?_ o
  split <;> exact hdecl

theorem dispatchExec_declared (h : ∀ c ∈ w.dtxn.dreqs, c.input.Declared)
    (hx : w.dispatchExec site t = some w') : ∀ c ∈ w'.dtxn.dreqs, c.input.Declared := by
  obtain ⟨st, hst, hx⟩ := bind_eq_some_iff.mp hx
  have hfirst : ∀ c ∈ st.work.dtxn.dreqs, c.input.Declared := by
    refine recursive_inv (I := fun u : Work => ∀ c ∈ u.dtxn.dreqs, c.input.Declared)
      (fun st i st' hs hp => ?_) (w := ⟨w.dtxn.setPhase .dispatch, w.store⟩) h hst
    rcases piece_executes hp with ⟨rfl, -⟩ | ⟨c, out, o, new, hex⟩
    · exact hs
    · rw [hex.dreqs]
      exact filedAt_declared hs i o
  refine run_inv (P := fun u : Work => ∀ c ∈ u.dtxn.dreqs, c.input.Declared)
    (fun u i u' hu hp => ?_) hfirst hx
  rcases checkPiece_cases hp with ⟨rfl, -⟩ | ⟨c, out, -, -, -, hrun⟩
  · exact hu
  · obtain ⟨a, -, hd, -⟩ := runHandler_spec hrun
    rw [hd]
    exact hu

theorem preAccepted_calm (site : Site) (h : Awaited (recordOf t s)) (rootType : ℕ) :
    Calm [] (preAccepted site t rootType s) := by
  have hstatus : (fetch site t s).status < txnCmt := h.status
  have hpac : txnPac < txnCmt := by decide
  unfold preAccepted RccDTxn.updateStatus
  split
  · exact ⟨h.dreqs, rfl, h.executed, hpac⟩
  · exact ⟨h.dreqs, rfl, h.executed, hstatus⟩

theorem takePieces_calm (h : Calm [] w.dtxn) (hcmds : ∀ c ∈ cmds, c.input.Declared)
    (hx : takePieces site t cmds w = some w') :
    ∃ cs, Calm cs w'.dtxn ∧ ∀ c ∈ cs, c.input.Declared := by
  rcases takePieces_cases hx with ⟨-, hexec⟩ | ⟨hcmt, -, -⟩ | rfl
  · obtain ⟨parents, dreqs, n, output, hd, -⟩ := dispatchExec_rework hexec
    have hdecl : ∀ c ∈ w'.dtxn.dreqs, c.input.Declared := by
      refine dispatchExec_declared (fun c hc => ?_) hexec
      have hpush : (pushPieces cmds (w.dtxn.setPhase .dispatch)).dreqs = cmds := by
        show w.dtxn.dreqs ++ cmds = cmds
        rw [h.dreqs, nil_append]
      exact hcmds c (hpush ▸ hc)
    refine ⟨w'.dtxn.dreqs, ⟨rfl, ?_, ?_, ?_⟩, hdecl⟩
    · rw [hd]; exact h.flag
    · rw [hd]; exact h.executed
    · rw [hd]; exact h.status
  · exact absurd h.status (Nat.not_lt.mpr hcmt)
  · exact ⟨[], h, forall_mem_nil _⟩

theorem onPreAcceptWoGraph_calm (h : Awaited (recordOf t s))
    (hcmds : ∀ c ∈ cmds, c.input.Declared) (hx : onPreAcceptWoGraph site t cmds s = some r) :
    ∃ d, r.1.dtxns.find t = some d ∧ Calm d.dreqs d ∧ ∀ c ∈ d.dreqs, c.input.Declared := by
  obtain ⟨first, -, ⟨-, rfl⟩ | ⟨w, report, hw, hreport, hdtxns, -⟩⟩ := onPreAcceptWoGraph_cases hx
  · have hcalm := preAccepted_calm site h first.rootType
    refine ⟨_, find_set_self .., hcalm.dreqs ▸ hcalm, fun c hc => ?_⟩
    rw [hcalm.dreqs] at hc
    exact absurd hc not_mem_nil
  · obtain ⟨cs, hcalm, hdecl⟩ := takePieces_calm (preAccepted_calm site h first.rootType) hcmds hw
    have hset : (s.dtxns.set t (setFullyDispatched w.dtxn)).find t =
        some (setFullyDispatched w.dtxn) := find_set_self ..
    obtain ⟨d, hd, bits, rfl⟩ := (minItfrGraph_bits hreport).find hset
    refine ⟨(setFullyDispatched w.dtxn).setBits bits, by rw [hdtxns, hd],
      ⟨rfl, hcalm.flag, hcalm.executed, hcalm.status⟩, fun c hc => ?_⟩
    exact hdecl c (hcalm.dreqs ▸ hc)

end PreAccept

/-! ### After the pre-accept -/

/-- Transaction `t` is calm, and no component but its own has it. -/
structure Idle (t : ℕ) (cs : List SimpleCommand) (g : Dtxns) : Prop where
  calm : ∃ d, g.find t = some d ∧ Calm cs d
  alone : ∀ v, v ≠ t → ¬ InComponent g v t

section After

variable {site : Site} {now : ℕ → ℕ} {t v : ℕ} {cs cs' : List SimpleCommand} {g g' : Dtxns}
  {s s' : Server} {d d' : RccDTxn} {r : Option (List ℕ) × Server} {ms : List Delivery}

theorem Calm.seen {N : Prop} (h : Calm cs d) (hN : ¬ N) (hd : Seen N d d') : Calm cs d' where
  dreqs := (show d'.core.dreqs = d.core.dreqs by rw [hd.core]).trans h.dreqs
  flag := (hd.flag (by rw [h.flag]; exact fun h => by cases h)).trans h.flag
  executed := eq_false_of_ne_true fun hex => (hd.new hex).elim
    (fun hex => Bool.noConfusion (h.executed.symm.trans hex)) hN
  status := hd.status ▸ h.status

theorem Idle.looked {N : ℕ → Prop} (h : Idle t cs g) (hN : ¬ N t) (hg : Looked N g g') :
    Idle t cs g' := by
  obtain ⟨d, hd, hcalm⟩ := h.calm
  obtain ⟨d', hd', hseen⟩ := hg.find hd
  exact ⟨⟨d', hd', hcalm.seen hN hseen⟩, fun v hv hin => h.alone v hv
    (inComponent_of_rel hg (fun _ _ _ hd => ⟨hd.parents, .inl hd.scc⟩) hin)⟩

theorem Idle.set (h : Idle t cs g) (hd : g.find t = some d) (hpar : d'.parents = d.parents)
    (hscc : d'.scc = d.scc) (hcalm : Calm cs' d') : Idle t cs' (g.set t d') := by
  refine ⟨⟨d', find_set_self .., hcalm⟩, fun v hv hin => h.alone v hv ?_⟩
  refine inComponent_of_rel (R := fun _ d d' => d'.parents = d.parents ∧ d'.scc = d.scc)
    (rel_set (fun _ _ => ⟨rfl, rfl⟩) hd ⟨hpar, hscc⟩) (fun _ _ _ hd => ⟨hd.1, .inl hd.2⟩) hin

theorem lookAt_early (hd : s.dtxns.find v = some d) (hst : d.status < txnCmt)
    (h : s.lookAt site now v = some r) :
    r.1 = none ∧ Looked (fun _ => False) s.dtxns r.2.dtxns := by
  have hpre := prelude_looked (N := fun _ => False) site hd
  rw [Server.lookAt, hd, Option.bind_some] at h
  simp only at h
  split at h
  · next hcond =>
    rw [(seen_involve d site.parId).status] at hcond
    exact absurd hst (Nat.not_lt.mpr hcond.1)
  · obtain rfl := some.inj h
    exact ⟨rfl, hpre⟩

section
variable (h : Idle t cs s.dtxns)
include h

/-- A look leaves `t` calm, and lets no component through that has it. -/
theorem lookAt_idle (hlook : s.lookAt site now v = some r) :
    Idle t cs r.2.dtxns ∧ ∀ scc, r.1 = some scc → t ∉ scc := by
  rcases eq_or_ne v t with rfl | hv
  · obtain ⟨d, hd, hcalm⟩ := h.calm
    obtain ⟨hnone, hr⟩ := lookAt_early hd hcalm.status hlook
    exact ⟨h.looked id hr, fun scc hscc => by cases hnone.symm.trans hscc⟩
  · rcases lookAt_cases hlook with ⟨hnone, hr⟩ | ⟨g1, c, g2, fns, h1, hf, hfns, hr, hout⟩
    · exact ⟨h.looked id hr, fun scc hscc => by cases hnone.symm.trans hscc⟩
    · have hi1 : Idle t cs g1 := h.looked id h1
      have hno : t ∉ c := fun hmem => hi1.alone v hv (findSccPred_mem hf hmem)
      have hi2 : Idle t cs g2 := by
        obtain ⟨d, hd, hcalm⟩ := hi1.calm
        obtain ⟨d', hd', hcase⟩ := (findSccPred_rel hf).find hd
        refine ⟨⟨d', hd', ?_⟩, fun u hu hin => hi1.alone u hu (inComponent_of_rel
          (findSccPred_rel hf) (fun _ _ _ hd => ?_) hin)⟩
        · rcases hcase with rfl | rfl
          · exact hcalm
          · exact ⟨hcalm.dreqs, hcalm.flag, hcalm.executed, hcalm.status⟩
        · rcases hd with rfl | rfl
          · exact ⟨rfl, .inl rfl⟩
          · exact ⟨rfl, .inr fun c' hc' => some.inj hc' ▸ hno⟩
      have hi3 : Idle t cs (decideScc c g2) := by
        obtain ⟨d, hd, hcalm⟩ := hi2.calm
        refine ⟨⟨d, by rw [find_decideScc, hd, Option.map_some, if_neg hno], hcalm⟩,
          fun u hu hin => hi2.alone u hu (inComponent_of_rel (decideScc_rel c g2)
            (fun _ _ _ hd => ?_) hin)⟩
        rcases hd with rfl | ⟨-, rfl⟩
        · exact ⟨rfl, .inl rfl⟩
        · exact ⟨rfl, .inl rfl⟩
      have hinv : ¬ NotInvolved (decideScc c g2) t := by
        rintro ⟨d, hd, hflag⟩
        obtain ⟨d', hd', hcalm⟩ := hi3.calm
        obtain rfl := some.inj (hd.symm.trans hd')
        exact hflag hcalm.flag
      refine ⟨(hi3.looked hinv (allAncFns_looked hfns)).looked id hr, fun scc hscc => ?_⟩
      rcases hout with hnone | ⟨hsome, -⟩
      · cases hnone.symm.trans hscc
      · obtain rfl := some.inj (hsome.symm.trans hscc)
        exact hno

theorem checkEntry_idle (hx : s.checkEntry site now v = some s') : Idle t cs s'.dtxns := by
  obtain ⟨r, s1, hlook, hexec, -, hleft⟩ := checkEntry_cases hx
  obtain ⟨hr, hno⟩ := lookAt_idle h hlook
  have hs1 : Idle t cs s1.dtxns := by
    rcases hexec with ⟨-, rfl⟩ | ⟨scc, hscc, hrun⟩
    · exact hr
    · obtain ⟨d, hd, hcalm⟩ := hr.calm
      exact ⟨⟨d, (executeScc_other hrun (hno scc hscc)).trans hd, hcalm⟩, fun u hu hin =>
        hr.alone u hu (inComponent_of_rel (executeScc_kept hrun)
          (fun _ _ _ hd => ⟨hd.parents, .inl hd.scc⟩) hin)⟩
  exact hs1.looked id hleft

theorem checkWaitlist_idle {clock : ℕ → ℕ → ℕ} {layout : List ℕ}
    (hx : s.checkWaitlist site clock layout = some s') : Idle t cs s'.dtxns := by
  refine run_inv (P := fun s : Server => Idle t cs s.dtxns) (fun s1 v s2 hs hstep => ?_) h hx
  split at hstep
  · exact checkEntry_idle hs hstep
  · exact some.inj hstep ▸ hs

theorem takeOutput_idle (values : Dict ℕ Value) :
    Idle t (cs.map fun c => c.offers values.entries) (takeOutput site t values s).1.dtxns := by
  obtain ⟨d, hd, hcalm⟩ := h.calm
  have hfetch : fetch site t s = { d with partition := d.partition.insert site.parId } := by
    rw [fetch, hd]; rfl
  have hset : Idle t (cs.map fun c => c.offers values.entries) (s.dtxns.set t
      (setDreqs (mergeCheckReadyPieces values (fetch site t s).dreqs).1 (fetch site t s))) := by
    rw [hfetch]
    refine h.set hd rfl rfl ⟨?_, hcalm.flag, hcalm.executed, hcalm.status⟩
    rw [setDreqs, mergeCheckReadyPieces_eq, hcalm.dreqs]
  have hno : (fetch site t s).executed = false := by rw [hfetch]; exact hcalm.executed
  rw [takeOutput]
  simp only [hno, Bool.false_eq_true, if_false]
  split <;> exact hset

theorem deliver_idle {m : Delivery} (hx : deliver site t s m = some s') :
    Idle t (cs.map fun c => c.offers m.values.entries) s'.dtxns := by
  rw [deliver, onSendOutput] at hx
  split at hx
  · exact checkWaitlist_idle (takeOutput_idle h m.values) hx
  · exact some.inj hx ▸ takeOutput_idle h m.values

end

theorem run_deliver_idle : ∀ {ms : List Delivery} {cs : List SimpleCommand} {s s' : Server},
    Idle t cs s.dtxns → run (deliver site t) s ms = some s' →
      Idle t (cs.map fun c => c.offers (delivered ms)) s'.dtxns
  | [], cs, s, s', h, hr => by
    obtain rfl := some.inj hr
    rw [show (cs.map fun c => c.offers (delivered [])) = cs from map_id cs]
    exact h
  | m :: ms, cs, s, s', h, hr => by
    obtain ⟨s1, h1, hr⟩ := run_cons.mp hr
    have hrest := run_deliver_idle (deliver_idle h h1) hr
    have hoffers : (cs.map fun c => c.offers (delivered (m :: ms))) =
        (cs.map fun c => c.offers m.values.entries).map fun c => c.offers (delivered ms) := by
      rw [map_map]
      refine map_congr_left fun c _ => ?_
      rw [delivered, flatMap_cons, SimpleCommand.offers, foldl_append]
      rfl
    rw [hoffers]
    exact hrest

end After

/-! ### Both orders -/

section

variable {site : Site} {t : ℕ} {cmds : List SimpleCommand} {s s1 s2 s3 : Server}
  {early late again : List Delivery} {r r' : Server × Option Graph}

theorem delivered_congr {ms ms' : List Delivery}
    (h : ms.map Delivery.values = ms'.map Delivery.values) : delivered ms = delivered ms' := by
  have hmap : ∀ l : List Delivery, delivered l = (l.map Delivery.values).flatMap entries :=
    fun l => by rw [delivered, flatMap_map]
  rw [hmap, hmap, h]

theorem recordOf_dreqs {cs : List SimpleCommand} (h : Idle t cs s.dtxns) :
    (recordOf t s).dreqs = cs := by
  obtain ⟨d, hd, hcalm⟩ := h.calm
  rw [recordOf, hd]
  exact hcalm.dreqs

/-- The values `early` come before the pre-accept of `t` and `late` after it. Every piece that has all
    its inputs by then is ready, with the values it has where the pre-accept comes first, exactly if
    of each variable that such a piece misses after the pre-accept the first value that comes late is
    the first that comes at all. -/
theorem early_values_kept_iff (hnew : Awaited (recordOf t s))
    (hcmds : ∀ c ∈ cmds, c.input.Declared) (hearly : run (deliver site t) s early = some s1)
    (hpre : onPreAcceptWoGraph site t cmds s1 = some r)
    (halone : ∀ v, v ≠ t → ¬ InComponent r.1.dtxns v t)
    (hlate : run (deliver site t) r.1 late = some s2)
    (hfirst : onPreAcceptWoGraph site t cmds s = some r')
    (hagain : again.map Delivery.values = (early ++ late).map Delivery.values)
    (hrun : run (deliver site t) r'.1 again = some s3) :
    (∀ (i : ℕ) (c : SimpleCommand), (recordOf t r.1).dreqs[i]? = some c →
      (∀ x, c.missing x → ((delivered (early ++ late)).lookup x).isSome) →
      ∃ c2 c3 : SimpleCommand, (recordOf t s2).dreqs[i]? = some c2 ∧
        (recordOf t s3).dreqs[i]? = some c3 ∧ c2.input.pieceInputReady = true ∧
        ∀ x, c2.input.values.find x = c3.input.values.find x) ↔ ∀ c ∈ (recordOf t r.1).dreqs,
      (∀ x, c.missing x → ((delivered (early ++ late)).lookup x).isSome) →
      ∀ x, c.missing x → (delivered late).lookup x = (delivered (early ++ late)).lookup x := by
  rw [onPreAcceptWoGraph_early hnew.dreqs hearly, hfirst] at hpre
  obtain rfl := some.inj hpre
  obtain ⟨d, hd, hcalm, hdecl⟩ := onPreAcceptWoGraph_calm hnew hcmds hfirst
  have hidle : Idle t d.dreqs r'.1.dtxns := ⟨⟨d, hd, hcalm⟩, halone⟩
  have h2 := recordOf_dreqs (run_deliver_idle hidle hlate)
  have h3 := recordOf_dreqs (run_deliver_idle hidle hrun)
  rw [delivered_congr hagain] at h3
  rw [recordOf_dreqs hidle, h2, h3]
  constructor
  · intro h c hc hall
    obtain ⟨i, hi⟩ := mem_iff_getElem?.mp hc
    obtain ⟨c2, c3, hc2, hc3, hready, hsame⟩ := h i c hi hall
    rw [getElem?_map, hi] at hc2 hc3
    obtain rfl := some.inj hc2
    obtain rfl := some.inj hc3
    exact (offers_same_iff (hdecl c hc) hall).mp ⟨hready, hsame⟩
  · intro h i c hi hall
    have hc := mem_of_getElem? hi
    refine ⟨_, _, by rw [getElem?_map, hi]; rfl, by rw [getElem?_map, hi]; rfl, ?_⟩
    exact (offers_same_iff (hdecl c hc) hall).mpr (h c hc hall)

theorem alone_of_entries {g : Dtxns} (h : ∀ e ∈ g.entries, t ∉ e.2.parents ∧ e.2.scc = none) :
    ∀ v, v ≠ t → ¬ InComponent g v t := by
  have hfind : ∀ x d, g.find x = some d → t ∉ d.parents ∧ d.scc = none := fun x d hd =>
    h _ (mem_entries_of_find hd)
  rintro v hv (⟨d, scc, hd, hscc, -⟩ | ⟨hvt, -⟩)
  · cases (hfind v d hd).2.symm.trans hscc
  · rcases Relation.ReflTransGen.cases_tail hvt with heq | ⟨b, -, hb⟩
    · exact hv heq.symm
    · obtain ⟨⟨d, hd, hp⟩, -⟩ := mem_parentsIn.mp hb
      exact (hfind b d hd).1 hp

/-- The value that `laterPiece` waits for. -/
def seven : Delivery := { values := ⟨[(7, .i32 5)]⟩, layout := [1] }

theorem laterPiece_declared : ∀ c ∈ [laterPiece], c.input.Declared := by
  intro c hc
  rw [mem_singleton.mp hc]
  refine ⟨by decide, fun _ x => ?_, rfl⟩
  rcases eq_or_ne x 7 with rfl | hx
  · exact iff_of_true (by decide) rfl
  · refine iff_of_false (fun hmem => hx (mem_singleton.mp hmem)) ?_
    simp [laterPiece, find, lookup, beq_eq_false_iff_ne.mpr hx]

/-- The value comes before the pre-accept and again after it. -/
theorem early_values_kept_iff_resent : ∃ s1 r s2 s3,
    run (deliver writeSite 1) (boot []) [seven] = some s1 ∧
    onPreAcceptWoGraph writeSite 1 [laterPiece] s1 = some r ∧
    run (deliver writeSite 1) r.1 [seven] = some s2 ∧
    run (deliver writeSite 1) r.1 [seven, seven] = some s3 ∧
    ∀ (i : ℕ) (c : SimpleCommand), (recordOf 1 r.1).dreqs[i]? = some c →
      (∀ x, c.missing x → ((delivered [seven, seven]).lookup x).isSome) →
      ∃ c2 c3 : SimpleCommand, (recordOf 1 s2).dreqs[i]? = some c2 ∧
        (recordOf 1 s3).dreqs[i]? = some c3 ∧ c2.input.pieceInputReady = true ∧
        ∀ x, c2.input.values.find x = c3.input.values.find x := by
  have hsome : ((run (deliver writeSite 1) (boot []) [seven]).bind fun s1 =>
      (onPreAcceptWoGraph writeSite 1 [laterPiece] s1).bind fun r =>
        if (∀ e ∈ r.1.dtxns.entries, 1 ∉ e.2.parents ∧ e.2.scc = none) ∧
          (run (deliver writeSite 1) r.1 [seven]).isSome ∧
          (run (deliver writeSite 1) r.1 [seven, seven]).isSome then some r
        else none).isSome = true := by decide
  obtain ⟨r, hr⟩ := isSome_iff_exists.mp hsome
  obtain ⟨s1, hearly, hr⟩ := bind_eq_some_iff.mp hr
  obtain ⟨r', hpre, hr⟩ := bind_eq_some_iff.mp hr
  split at hr
  · next hcond =>
    obtain rfl := some.inj hr
    obtain ⟨s2, hlate⟩ := isSome_iff_exists.mp hcond.2.1
    obtain ⟨s3, hagain⟩ := isSome_iff_exists.mp hcond.2.2
    have hfirst : onPreAcceptWoGraph writeSite 1 [laterPiece] (boot []) = some r' := by
      rw [← hpre]
      exact (onPreAcceptWoGraph_early rfl hearly _).symm
    refine ⟨s1, r', s2, s3, hearly, hpre, hlate, hagain, ?_⟩
    refine (early_values_kept_iff ⟨rfl, rfl, by decide⟩ laterPiece_declared hearly hpre
      (alone_of_entries hcond.1) hlate hfirst rfl hagain).mpr ?_
    intro c _ _ x _
    rcases eq_or_ne x 7 with rfl | hx
    · rfl
    · simp [delivered, seven, lookup, beq_eq_false_iff_ne.mpr hx]
  · cases hr

/-- The value is sent three times, each time before the pre-accept, and the piece goes on waiting. -/
theorem early_value_lost :
    ((run (deliver writeSite 1) (boot []) [seven, seven, seven]).bind fun s =>
      (onPreAcceptWoGraph writeSite 1 [laterPiece] s).map fun r =>
        (recordOf 1 r.1).dreqs.map fun c => c.input.pieceInputReady) = some [false] ∧
    ((onPreAcceptWoGraph writeSite 1 [laterPiece] (boot [])).bind fun r =>
      (run (deliver writeSite 1) r.1 [seven, seven, seven]).map fun s =>
        (recordOf 1 s).dreqs.map fun c => (c.input.pieceInputReady, c.input.values.find 7)) =
      some [(true, some (.i32 5))] := by
  decide

end

end Fiss.Brq
