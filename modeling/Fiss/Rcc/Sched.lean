import Fiss.Rcc.Graph
import Fiss.Rcc.Pieces
import Fiss.Schemes.Traverse

/-! The server's scheduler: transactions that wait are looked at one by one (`CheckWaitlist`), and
    the component of a committed transaction is executed once its ancestors allow it.

    The epochs and the answers to other servers' inquiries are left out. The clock is read once for
    each transaction asked about in a look: a later reading in the same look gives the same answer. -/

namespace Fiss.Rcc
open Option Dict RccDTxn

/-- An order handed to `TransferOrder`. -/
structure Order where
  txn : ℕ
  parents : List ℕ
  rootType : ℕ
  shards : List ℕ
  deriving DecidableEq

/-- Values sent to another partition. -/
structure SentOutput where
  target : ℕ
  txn : ℕ
  values : Dict ℕ Value
  deriving DecidableEq

/-- A server. -/
structure Server where
  dtxns : Dtxns := {}
  /-- the transactions to look at -/
  waitlist : Finset ℕ := ∅
  store : Store := {}
  sent : List SentOutput := []
  orders : List Order := []
  /-- the transactions other servers were asked about -/
  inquired : List ℕ := []
  deriving DecidableEq

namespace RccDTxn

variable (d : RccDTxn)

def addToChecks (v : ℕ) : RccDTxn := { d with toChecks := d.toChecks.insert v }

def clearToChecks : RccDTxn := { d with toChecks := ∅ }

def setExecuted : RccDTxn := { d with executed := true }

def setDuringAsking : RccDTxn := { d with duringAsking := true }

end RccDTxn

/-! ### Walks over the ancestors -/

/-- `TraversePred` without a bound on the depth. -/
def traversePred (visit : Dtxns → ℕ → SearchHint × Dtxns) (g : Dtxns) (v : ℕ) : Tour ℕ Dtxns :=
  Tour.walk (parentsIn g) visit g.keys.dedup.length v { state := g }

/-- What `AllAncCmt` does at an ancestor `p` of `vertex`. -/
def ancCmt (now : ℕ → ℕ) (vertex : ℕ) (g : Dtxns) (p : ℕ) : SearchHint × Dtxns :=
  match g.find p with
  | none => (.skip, g)
  | some d =>
    if d.executed || d.isAborted then (.skip, g)
    else if d.involveFlag ≠ .involved then
      if (d.checkInquire (now p)).1 then (.skip, g.set p (d.checkInquire (now p)).2)
      else (.exit, g.set p ((d.checkInquire (now p)).2.addToChecks vertex))
    else if txnCmt ≤ d.status then (.ok, g)
    else (.exit, g.set p (d.addToChecks vertex))

/-- `AllAncCmt`: its flag is cleared exactly where the walk is told to exit. -/
def allAncCmt (now : ℕ → ℕ) (g : Dtxns) (v : ℕ) : Bool × Dtxns :=
  let t := traversePred (ancCmt now v) g v
  (!t.exited, t.state)

/-- What `AllAncFns` does at an ancestor `p` of the component `scc`, which starts with `first`. -/
def ancFns (now : ℕ → ℕ) (scc : List ℕ) (first : ℕ) (g : Dtxns) (p : ℕ) : SearchHint × Dtxns :=
  match g.find p with
  | none => (.skip, g)
  | some d =>
    if d.executed then (.skip, g)
    else if d.involveFlag ≠ .involved then
      if (d.checkInquire (now p)).1 then (.skip, g.set p (d.checkInquire (now p)).2.setExecuted)
      else (.exit, g.set p (d.checkInquire (now p)).2)
    else if txnDcd ≤ d.status then (.ok, g)
    else if p ∈ scc then (.ok, g)
    else (.exit, g.set p (d.addToChecks first))

def allAncFns (now : ℕ → ℕ) (g : Dtxns) (scc : List ℕ) : Option (Bool × Dtxns) :=
  scc.head?.map fun first =>
    let t := traversePred (ancFns now scc first) g first
    (!t.exited, t.state)

/-! ### Executing a component -/

/-- `Decide`. -/
def decideScc (scc : List ℕ) (g : Dtxns) : Dtxns :=
  scc.foldl (fun g v => g.modify v fun d => d.unionStatus txnDcd) g

/-- `FullyDispatched`: the members up to the first that is not. -/
def fullyDispatched (par : ℕ) : List ℕ → Dtxns → Bool × Dtxns
  | [], g => (true, g)
  | v :: vs, g =>
    match g.find v with
    | none => fullyDispatched par vs g
    | some d =>
      if (d.involve par).1 && !d.fullyDispatched then (false, g.set v (d.involve par).2)
      else fullyDispatched par vs (g.set v (d.involve par).2)

namespace Server

variable (site : Site) (now : ℕ → ℕ) (v : ℕ) (s : Server)

def setDtxns (g : Dtxns) : Server := { s with dtxns := g }

/-- The server after transaction `t` was executed to `w`, with the outputs it sends. -/
def setWork (t : ℕ) (w : Work) (out : Dict ℕ (Dict ℕ Value)) : Server :=
  { s with
    dtxns := s.dtxns.set t w.dtxn
    store := w.store
    sent := s.sent ++ (out.entries.filter fun e => e.1 ≠ site.parId).map fun e => ⟨e.1, t, e.2⟩ }

def tryExecReadyPieces (t : ℕ) (isSpec : Bool) : Option Server :=
  (s.dtxns.find t).bind fun d =>
    if d.isDecided = false then none
    else if (d.involve site.parId).1 then
      (Work.commitExecAllRdy site t ⟨(d.involve site.parId).2, s.store⟩).map fun r =>
        let d := if isSpec = false ∧ r.1.dtxn.nLocalPieces = r.1.dtxn.nExecutedPieces
          then r.1.dtxn.setExecuted else r.1.dtxn
        s.setWork site t ⟨d, r.1.store⟩ r.2
    else some (s.setDtxns (s.dtxns.set t (d.involve site.parId).2))

/-- The loop body of `ExecuteScc` at member `v`; the flag is `is_spec`. -/
def executeMember (st : Server × Bool) (v : ℕ) : Option (Server × Bool) :=
  (st.1.tryExecReadyPieces site v st.2).bind fun s =>
    (s.dtxns.find v).bind fun d =>
      if d.executed then if d.nExecutedPieces = d.nLocalPieces then some (s, st.2) else none
      else if d.involveFlag ≠ .involved then
        some (s.setDtxns (s.dtxns.set v d.setExecuted), st.2)
      else some (s, true)

def executeScc (scc : List ℕ) : Option Server :=
  (run (executeMember site) (s, false) scc).map Prod.fst

/-! ### The waitlist -/

def inquireAboutIfNeeded (par v : ℕ) (d : RccDTxn) (s : Server) : Server :=
  if d.status ≤ txnStd ∧ d.duringAsking = false ∧ (d.involve par).1 = false then
    { s with dtxns := s.dtxns.set v d.setDuringAsking, inquired := s.inquired ++ [v] }
  else s

/-- What comes before `ExecuteScc` for a committed transaction: the component to execute, if any. -/
def sccReady : Option (Option (List ℕ) × Server) :=
  let cmt := allAncCmt now s.dtxns v
  if cmt.1 then
    (findSccPred cmt.2 v).bind fun found =>
      (allAncFns now (decideScc found.1 found.2) found.1).map fun fns =>
        if fns.1 then
          let full := fullyDispatched site.parId found.1 fns.2
          (if full.1 then some found.1 else none, s.setDtxns full.2)
        else (none, s.setDtxns fns.2)
  else some (none, s.setDtxns cmt.2)

/-- A look at `v` up to `ExecuteScc`. -/
def lookAt : Option (Option (List ℕ) × Server) :=
  (s.dtxns.find v).bind fun d0 =>
    let d := (d0.involve site.parId).2
    let s := inquireAboutIfNeeded site.parId v d (s.setDtxns (s.dtxns.set v d))
    if txnCmt ≤ d.status ∧ d.executed = false then s.sccReady site now v else some (none, s)

/-- The end of a look at `v`: it leaves the waitlist or stays. -/
def leave : Option Server :=
  (s.dtxns.find v).map fun d =>
    if d.executed || d.isAborted then
      { s with
        dtxns := s.dtxns.set v d.clearToChecks
        waitlist := (s.waitlist ∪ d.toChecks.elems.toFinset).erase v }
    else if (d.involve site.parId).1 then s.setDtxns (s.dtxns.set v (d.involve site.parId).2)
    else
      { s with
        dtxns := s.dtxns.set v (d.involve site.parId).2.clearToChecks
        waitlist := (s.waitlist ∪ d.toChecks.elems.toFinset).erase v }

/-- The loop body of `CheckWaitlist` at `v`. -/
def checkEntry : Option Server :=
  (s.lookAt site now v).bind fun r =>
    (r.1.elim (some r.2) fun scc => r.2.executeScc site scc).bind fun s => s.leave site v

/-- `CheckWaitlist`. The waitlist is walked by address, given as the list of all vertices in that
    order; what is put on it behind the current place is not looked at in this walk. -/
def checkWaitlist (clock : ℕ → ℕ → ℕ) (layout : List ℕ) : Option Server :=
  run (fun s v => if v ∈ s.waitlist then s.checkEntry site (clock v) v else some s) s layout

end Server

/-! ### What a look changes -/

/-- The record without what a look may change. -/
def RccDTxn.core (d : RccDTxn) : RccDTxn :=
  { d with
    status := 0, involveFlag := .unknown, scc := none, inquireTimer := 0, toChecks := ∅
    duringAsking := false, executed := false }

/-- `d'` has the parents, the status and the component of `d`, and its flag where it is settled;
    what is executed stays so, and becomes so only under `N`. -/
structure Kept (N : Prop) (d d' : RccDTxn) : Prop where
  parents : d'.parents = d.parents
  flag : d.involveFlag ≠ .unknown → d'.involveFlag = d.involveFlag
  status : d'.status = d.status
  scc : d'.scc = d.scc
  executed : d.executed = true → d'.executed = true
  new : d'.executed = true → d.executed = true ∨ N

/-- The same, with the rest of the record left alone. -/
structure Seen (N : Prop) (d d' : RccDTxn) : Prop extends Kept N d d' where
  core : d'.core = d.core

section Kept

variable {N N' : Prop} {d d' d'' : RccDTxn}

theorem Kept.refl (d : RccDTxn) : Kept N d d :=
  ⟨rfl, fun _ => rfl, rfl, rfl, fun h => h, fun h => .inl h⟩

theorem Kept.trans (h : Kept N d d') (h' : Kept N' d' d'') : Kept (N ∨ N') d d'' where
  parents := h'.parents.trans h.parents
  flag hne := (h'.flag (h.flag hne ▸ hne)).trans (h.flag hne)
  status := h'.status.trans h.status
  scc := h'.scc.trans h.scc
  executed hd := h'.executed (h.executed hd)
  new hd := by
    rcases h'.new hd with hd | hN
    · exact (h.new hd).imp_right .inl
    · exact .inr (.inr hN)

theorem Kept.mono (h : Kept N d d') (hN : N → N') : Kept N' d d' :=
  ⟨h.parents, h.flag, h.status, h.scc, h.executed, fun hd => (h.new hd).imp_right hN⟩

theorem Seen.refl (d : RccDTxn) : Seen N d d := ⟨Kept.refl d, rfl⟩

theorem Seen.trans (h : Seen N d d') (h' : Seen N' d' d'') : Seen (N ∨ N') d d'' :=
  ⟨h.toKept.trans h'.toKept, h'.core.trans h.core⟩

theorem Seen.mono (h : Seen N d d') (hN : N → N') : Seen N' d d' := ⟨h.toKept.mono hN, h.core⟩

theorem seen_involve (d : RccDTxn) (par : ℕ) : Seen False d (d.involve par).2 := by
  rw [involve]
  split
  · exact Seen.refl d
  · exact Seen.refl d
  · next hflag =>
    have hset : ∀ f, Seen False d { d with involveFlag := f } := fun f =>
      ⟨⟨rfl, fun h => absurd hflag h, rfl, rfl, fun h => h, fun h => .inl h⟩, rfl⟩
    split
    · cases d.isCommitting with
      | true => exact hset _
      | false => exact Seen.refl d
    · cases d.isCommitting with
      | true => exact hset _
      | false => exact Seen.refl d

theorem seen_checkInquire (d : RccDTxn) (now : ℕ) : Seen False d (d.checkInquire now).2 := by
  rw [checkInquire]
  split
  · exact ⟨⟨rfl, fun _ => rfl, rfl, rfl, fun h => h, fun h => .inl h⟩, rfl⟩
  · exact Seen.refl d

theorem seen_addToChecks (d : RccDTxn) (v : ℕ) : Seen False d (d.addToChecks v) :=
  ⟨⟨rfl, fun _ => rfl, rfl, rfl, fun h => h, fun h => .inl h⟩, rfl⟩

theorem seen_clearToChecks (d : RccDTxn) : Seen False d d.clearToChecks :=
  ⟨⟨rfl, fun _ => rfl, rfl, rfl, fun h => h, fun h => .inl h⟩, rfl⟩

theorem seen_setDuringAsking (d : RccDTxn) : Seen False d d.setDuringAsking :=
  ⟨⟨rfl, fun _ => rfl, rfl, rfl, fun h => h, fun h => .inl h⟩, rfl⟩

theorem seen_setExecuted (d : RccDTxn) : Seen True d d.setExecuted :=
  ⟨⟨rfl, fun _ => rfl, rfl, rfl, fun _ => rfl, fun _ => .inr trivial⟩, rfl⟩

end Kept

/-- Records looked at, where `N` says which of them may have become executed. -/
def Looked (N : ℕ → Prop) (g g' : Dtxns) : Prop := Dict.Rel (fun x => Seen (N x)) g g'

section Looked

variable {N N' : ℕ → Prop} {g g0 g1 g2 : Dtxns} {now : ℕ → ℕ} {d d' : RccDTxn} {v p : ℕ}

theorem Looked.refl (g : Dtxns) : Looked N g g := rel_refl (fun _ d => Seen.refl d) g

theorem Looked.trans (h : Looked N g0 g1) (h' : Looked N' g1 g2) :
    Looked (fun x => N x ∨ N' x) g0 g2 :=
  Dict.Rel.trans h h' fun _ _ _ _ hab hbc => hab.trans hbc

theorem Looked.mono (h : Looked N g0 g1) (hN : ∀ x, N x → N' x) : Looked N' g0 g1 :=
  Dict.Rel.mono h fun x _ _ hab => hab.mono (hN x)

theorem Looked.append (h : Looked N g0 g1) (h' : Looked N g1 g2) : Looked N g0 g2 :=
  (h.trans h').mono fun _ hN => hN.elim id id

theorem looked_set (hd : g.find v = some d) (h : Seen (N v) d d') : Looked N g (g.set v d') :=
  rel_set (fun _ d => Seen.refl d) hd h

theorem looked_set_of_seen (hd : g.find v = some d) (h : Seen False d d') :
    Looked N g (g.set v d') := looked_set hd (h.mono False.elim)

theorem ancCmt_looked (now : ℕ → ℕ) (v : ℕ) (g : Dtxns) (p : ℕ) :
    Looked N g (ancCmt now v g p).2 := by
  rw [ancCmt]
  split
  · exact Looked.refl g
  · next d hd =>
    have hask := seen_checkInquire d (now p)
    split
    · exact Looked.refl g
    · split
      · split
        · exact looked_set_of_seen hd hask
        · exact looked_set_of_seen hd ((hask.trans (seen_addToChecks _ v)).mono (or_self_iff.mp ·))
      · split
        · exact Looked.refl g
        · exact looked_set_of_seen hd (seen_addToChecks d v)

theorem allAncCmt_looked (now : ℕ → ℕ) (g : Dtxns) (v : ℕ) : Looked N g (allAncCmt now g v).2 :=
  walk_inv (I := Looked N g) (fun g' p h => h.append (ancCmt_looked now v g' p)) _ v _
    (Looked.refl g)

/-- Where `x` stands in `g`, it is not flagged as involved. -/
def NotInvolved (g : Dtxns) (x : ℕ) : Prop :=
  ∃ d, g.find x = some d ∧ d.involveFlag ≠ .involved

theorem notInvolved_of_looked (h : Looked N g0 g) (hp : NotInvolved g p) : NotInvolved g0 p := by
  obtain ⟨d, hd, hflag⟩ := hp
  obtain ⟨d0, hd0, hseen⟩ := h.find_rev hd
  refine ⟨d0, hd0, fun hinv => hflag ?_⟩
  rw [hseen.flag (by rw [hinv]; exact fun h => by cases h), hinv]

theorem ancFns_looked (now : ℕ → ℕ) (scc : List ℕ) (first : ℕ) (g : Dtxns) (p : ℕ) :
    Looked (NotInvolved g) g (ancFns now scc first g p).2 := by
  rw [ancFns]
  split
  · exact Looked.refl g
  · next d hd =>
    have hask := seen_checkInquire d (now p)
    split
    · exact Looked.refl g
    · split
      · next hflag =>
        split
        · exact looked_set hd ((hask.trans (seen_setExecuted _)).mono fun _ => ⟨d, hd, hflag⟩)
        · exact looked_set_of_seen hd hask
      · split
        · exact Looked.refl g
        · split
          · exact Looked.refl g
          · exact looked_set_of_seen hd (seen_addToChecks d first)

theorem Looked.ancFns (h : Looked (NotInvolved g0) g0 g) (now : ℕ → ℕ) (scc : List ℕ) (first p : ℕ) :
    Looked (NotInvolved g0) g0 (ancFns now scc first g p).2 :=
  h.append ((ancFns_looked now scc first g p).mono fun _ hx => notInvolved_of_looked h hx)

theorem allAncFns_looked {scc : List ℕ} {r : Bool × Dtxns} (h : allAncFns now g scc = some r) :
    Looked (NotInvolved g) g r.2 := by
  obtain ⟨first, -, rfl⟩ := map_eq_some_iff.mp h
  exact walk_inv (I := Looked (NotInvolved g) g) (fun g' p h => h.ancFns now scc first p) _ first _
    (Looked.refl g)

theorem fullyDispatched_looked (par : ℕ) : ∀ (scc : List ℕ) (g : Dtxns),
    Looked N g (fullyDispatched par scc g).2
  | [], g => Looked.refl g
  | v :: vs, g => by
    rw [fullyDispatched]
    split
    · exact fullyDispatched_looked par vs g
    · next d hd =>
      have hset : Looked N g (g.set v (d.involve par).2) := looked_set_of_seen hd (seen_involve d par)
      split
      · exact hset
      · exact hset.append (fullyDispatched_looked par vs _)

theorem find_decideScc (x : ℕ) : ∀ (scc : List ℕ) (g : Dtxns), (decideScc scc g).find x =
    (g.find x).map fun d => if x ∈ scc then d.unionStatus txnDcd else d
  | [], g => by simp [decideScc]
  | v :: vs, g => by
    have hvs := find_decideScc x vs (g.modify v fun d => d.unionStatus txnDcd)
    rw [decideScc, List.foldl_cons, ← decideScc, hvs, find_modify]
    rcases eq_or_ne x v with rfl | hx
    · rw [if_pos rfl, map_map]
      congr 1
      funext d
      by_cases hmem : x ∈ vs
      · simp [hmem, unionStatus]
      · simp [hmem]
    · rw [if_neg hx]
      simp [hx]

theorem decideScc_rel (scc : List ℕ) (g : Dtxns) :
    Dict.Rel (fun x d d' => d' = d ∨ (x ∈ scc ∧ d' = d.unionStatus txnDcd)) g (decideScc scc g) :=
  fun x => by
    rw [find_decideScc]
    cases g.find x with
    | none => exact .none
    | some d =>
      refine .some ?_
      split
      · next hx => exact .inr ⟨hx, rfl⟩
      · exact .inl rfl

theorem findSccPred_rel {scc : List ℕ} (h : findSccPred g v = some (scc, g1)) :
    Dict.Rel (fun _ d d' => d' = d ∨ d' = d.setScc scc) g g1 := by
  obtain ⟨d, hd, h⟩ := bind_eq_some_iff.mp h
  cases hscc : d.scc with
  | some c =>
    rw [hscc] at h
    obtain ⟨-, rfl⟩ := Prod.mk.inj (some.inj h)
    exact rel_refl (R := fun _ d d' => d' = d ∨ d' = setScc d scc)
      (fun _ _ => .inl rfl) g
  | none =>
    obtain ⟨g', hg', hfind⟩ := findSccPred_eq hd hscc
    rw [findSccPred, hd, bind_some, h] at hg'
    obtain ⟨rfl, rfl⟩ := Prod.mk.inj (some.inj hg')
    intro x
    rw [hfind x]
    cases g.find x with
    | none => exact .none
    | some e =>
      refine .some ?_
      split
      · exact .inr rfl
      · exact .inl rfl

end Looked

/-! ### What an execution changes -/

section

variable {site : Site} {s s' : Server} {st st' : Server × Bool} {t v : ℕ} {isSpec : Bool}
  {scc : List ℕ} {x : ℕ}

theorem commitExecAllRdy_kept {d : RccDTxn} {store : Store} {w : Work} {ret : Dict ℕ (Dict ℕ Value)}
    (h : Work.commitExecAllRdy site t ⟨d, store⟩ = some (w, ret)) : Kept False d w.dtxn := by
  obtain ⟨st, hst, rfl, -⟩ := commitExecAllRdy_eq_some h
  obtain ⟨parents, dreqs, n, output, hd, -, hparents⟩ := recursive_rework hst
  have hsame : parents = d.parents := hparents rfl
  rw [hd, hsame]
  exact ⟨rfl, fun _ => rfl, rfl, rfl, fun h => h, fun h => .inl h⟩

theorem tryExecReadyPieces_cases (h : s.tryExecReadyPieces site t isSpec = some s') :
    ∃ d, s.dtxns.find t = some d ∧ d.isDecided = true ∧ (((d.involve site.parId).1 = false ∧
        s' = s.setDtxns (s.dtxns.set t (d.involve site.parId).2)) ∨
      ((d.involve site.parId).1 = true ∧ ∃ w ret d',
        Work.commitExecAllRdy site t ⟨(d.involve site.parId).2, s.store⟩ = some (w, ret) ∧
        (d' = w.dtxn ∨ d' = w.dtxn.setExecuted) ∧ s' = s.setWork site t ⟨d', w.store⟩ ret)) := by
  obtain ⟨d, hd, h⟩ := bind_eq_some_iff.mp h
  split at h
  · cases h
  · next hdcd =>
    refine ⟨d, hd, eq_true_of_ne_false hdcd, ?_⟩
    split at h
    · next hinv =>
      obtain ⟨⟨w, ret⟩, hw, heq⟩ := map_eq_some_iff.mp h
      refine .inr ⟨hinv, w, ret, _, hw, ?_, heq.symm⟩
      split
      · exact .inr rfl
      · exact .inl rfl
    · next hinv => exact .inl ⟨eq_false_of_ne_true hinv, (some.inj h).symm⟩

theorem tryExecReadyPieces_kept (h : s.tryExecReadyPieces site t isSpec = some s') :
    Dict.Rel (fun x => Kept (x = t)) s.dtxns s'.dtxns := by
  obtain ⟨d, hd, -, hcase⟩ := tryExecReadyPieces_cases h
  have hinv : Kept (t = t) d (d.involve site.parId).2 :=
    (seen_involve d site.parId).toKept.mono False.elim
  rcases hcase with ⟨-, rfl⟩ | ⟨-, w, ret, d', hw, hd', rfl⟩
  · exact rel_set (fun _ d => Kept.refl d) hd hinv
  · refine rel_set (fun _ d => Kept.refl d) hd ?_
    have hkept : Kept (t = t) d w.dtxn := (hinv.trans (commitExecAllRdy_kept hw)).mono fun _ => rfl
    rcases hd' with rfl | rfl
    · exact hkept
    · exact (hkept.trans (seen_setExecuted w.dtxn).toKept).mono fun _ => rfl

theorem executeMember_cases (h : Server.executeMember site st v = some st') :
    ∃ s d, st.1.tryExecReadyPieces site v st.2 = some s ∧ s.dtxns.find v = some d ∧
      (st'.1 = s ∨ (d.involveFlag ≠ .involved ∧ st'.1 = s.setDtxns (s.dtxns.set v d.setExecuted))) := by
  obtain ⟨s, hs, h⟩ := bind_eq_some_iff.mp h
  obtain ⟨d, hd, h⟩ := bind_eq_some_iff.mp h
  refine ⟨s, d, hs, hd, ?_⟩
  split at h
  · split at h
    · exact .inl (congrArg Prod.fst (some.inj h)).symm
    · cases h
  · split at h
    · next hflag => exact .inr ⟨hflag, (congrArg Prod.fst (some.inj h)).symm⟩
    · exact .inl (congrArg Prod.fst (some.inj h)).symm

theorem executeMember_kept (h : Server.executeMember site st v = some st') :
    Dict.Rel (fun x => Kept (x = v)) st.1.dtxns st'.1.dtxns := by
  obtain ⟨s, d, hs, hd, heq | ⟨-, heq⟩⟩ := executeMember_cases h
  · rw [heq]
    exact tryExecReadyPieces_kept hs
  · rw [heq]
    have hset : Dict.Rel (fun x => Kept (x = v)) s.dtxns (s.dtxns.set v d.setExecuted) :=
      rel_set (fun _ d => Kept.refl d) hd ((seen_setExecuted d).toKept.mono fun _ => rfl)
    exact (tryExecReadyPieces_kept hs).trans hset fun _ _ _ _ hab hbc =>
      (hab.trans hbc).mono fun h => h.elim id id

theorem executeScc_kept (h : s.executeScc site scc = some s') :
    Dict.Rel (fun x => Kept (x ∈ scc)) s.dtxns s'.dtxns := by
  obtain ⟨st, hst, rfl⟩ := map_eq_some_iff.mp h
  refine run_inv_mem (P := fun st : Server × Bool =>
      Dict.Rel (fun x => Kept (x ∈ scc)) s.dtxns st.1.dtxns)
    (fun st v st' hv hs hm => ?_) (s := (s, false)) (rel_refl (fun _ d => Kept.refl d) _) hst
  exact hs.trans (executeMember_kept hm) fun x _ _ _ hab hbc =>
    (hab.trans hbc).mono fun h => h.elim id fun hx => hx ▸ hv

/-! Other transactions are left alone. -/

theorem tryExecReadyPieces_other (h : s.tryExecReadyPieces site t isSpec = some s') (hx : x ≠ t) :
    s'.dtxns.find x = s.dtxns.find x := by
  obtain ⟨d, -, -, ⟨-, rfl⟩ | ⟨-, w, ret, d', -, -, rfl⟩⟩ := tryExecReadyPieces_cases h
  · exact find_set_ne _ hx _
  · exact find_set_ne _ hx _

theorem executeMember_other (hm : Server.executeMember site st v = some st') (hx : x ≠ v) :
    st'.1.dtxns.find x = st.1.dtxns.find x := by
  obtain ⟨s1, d, hs1, -, heq | ⟨-, heq⟩⟩ := executeMember_cases hm
  · rw [heq]
    exact tryExecReadyPieces_other hs1 hx
  · rw [heq]
    exact (find_set_ne _ hx _).trans (tryExecReadyPieces_other hs1 hx)

theorem executeScc_other (h : s.executeScc site scc = some s') (hx : x ∉ scc) :
    s'.dtxns.find x = s.dtxns.find x := by
  obtain ⟨st, hst, rfl⟩ := map_eq_some_iff.mp h
  refine run_inv_mem (P := fun st : Server × Bool => st.1.dtxns.find x = s.dtxns.find x)
    (fun st v st' hv hs hm => ?_) (s := (s, false)) rfl hst
  exact (executeMember_other hm (ne_of_mem_of_not_mem hv hx).symm).trans hs

end

/-! ### A whole look -/

section

variable {site : Site} {now : ℕ → ℕ} {s s' : Server} {v : ℕ} {N : ℕ → Prop}
  {r : Option (List ℕ) × Server}

theorem leave_looked (h : s.leave site v = some s') : Looked N s.dtxns s'.dtxns := by
  obtain ⟨d, hd, rfl⟩ := map_eq_some_iff.mp h
  have hinv := seen_involve d site.parId
  split
  · exact looked_set_of_seen hd (seen_clearToChecks d)
  · split
    · exact looked_set_of_seen hd hinv
    · exact looked_set_of_seen hd ((hinv.trans (seen_clearToChecks _)).mono (or_self_iff.mp ·))

theorem prelude_looked (site : Site) {d : RccDTxn} (hd : s.dtxns.find v = some d) :
    Looked N s.dtxns (Server.inquireAboutIfNeeded site.parId v (d.involve site.parId).2
      (s.setDtxns (s.dtxns.set v (d.involve site.parId).2))).dtxns := by
  have hinv := seen_involve d site.parId
  rw [Server.inquireAboutIfNeeded]
  split
  · refine (looked_set_of_seen hd hinv).append (looked_set_of_seen ?_ (seen_setDuringAsking _))
    exact find_set_self ..
  · exact looked_set_of_seen hd hinv

/-- A look at `v` finds a component that is ready, or changes little. -/
def LookedAt (now : ℕ → ℕ) (v : ℕ) (s : Server) (r : Option (List ℕ) × Server) : Prop :=
  (r.1 = none ∧ Looked (fun _ => False) s.dtxns r.2.dtxns) ∨
  ∃ g1 scc g2 fns, Looked (fun _ => False) s.dtxns g1 ∧ findSccPred g1 v = some (scc, g2) ∧
    allAncFns now (decideScc scc g2) scc = some fns ∧
    Looked (fun _ => False) fns.2 r.2.dtxns ∧ (r.1 = none ∨ (r.1 = some scc ∧ fns.1 = true))

theorem sccReady_cases (h : s.sccReady site now v = some r) : LookedAt now v s r := by
  have hcmt : Looked (fun _ => False) s.dtxns (allAncCmt now s.dtxns v).2 := allAncCmt_looked now _ v
  rw [Server.sccReady] at h
  simp only at h
  split at h
  · obtain ⟨⟨scc, g2⟩, hfound, h⟩ := bind_eq_some_iff.mp h
    obtain ⟨fns, hfns, heq⟩ := map_eq_some_iff.mp h
    refine .inr ⟨_, scc, g2, fns, hcmt, hfound, hfns, ?_⟩
    split at heq
    · next hok =>
      obtain rfl := heq
      refine ⟨fullyDispatched_looked site.parId scc fns.2, ?_⟩
      simp only
      split
      · exact .inr ⟨rfl, hok⟩
      · exact .inl rfl
    · obtain rfl := heq
      exact ⟨Looked.refl fns.2, .inl rfl⟩
  · obtain rfl := some.inj h
    exact .inl ⟨rfl, hcmt⟩

theorem lookAt_cases (h : s.lookAt site now v = some r) : LookedAt now v s r := by
  obtain ⟨d, hd, h⟩ := bind_eq_some_iff.mp h
  have hpre := prelude_looked (N := fun _ => False) site hd
  simp only at h
  split at h
  · rcases sccReady_cases h with ⟨hnone, hlook⟩ | ⟨g1, scc, g2, fns, h1, hrest⟩
    · exact .inl ⟨hnone, hpre.append hlook⟩
    · exact .inr ⟨g1, scc, g2, fns, hpre.append h1, hrest⟩
  · obtain rfl := some.inj h
    exact .inl ⟨rfl, hpre⟩

theorem checkEntry_cases (h : s.checkEntry site now v = some s') :
    ∃ r s1, s.lookAt site now v = some r ∧
      ((r.1 = none ∧ s1 = r.2) ∨ ∃ scc, r.1 = some scc ∧ r.2.executeScc site scc = some s1) ∧
      s1.leave site v = some s' ∧ Looked (fun _ => False) s1.dtxns s'.dtxns := by
  obtain ⟨r, hr, h⟩ := bind_eq_some_iff.mp h
  obtain ⟨s1, hs1, h⟩ := bind_eq_some_iff.mp h
  refine ⟨r, s1, hr, ?_, h, leave_looked h⟩
  cases hscc : r.1 with
  | none =>
    rw [hscc, elim_none] at hs1
    exact .inl ⟨rfl, (some.inj hs1).symm⟩
  | some scc =>
    rw [hscc, elim_some] at hs1
    exact .inr ⟨scc, rfl, hs1⟩

end

/-! ### What a look leaves of the server -/

/-- The tables and the orders are as they were. -/
def SameStore (s s' : Server) : Prop := s'.store = s.store ∧ s'.orders = s.orders

section Rest

variable {site : Site} {now : ℕ → ℕ} {s s' : Server} {v t : ℕ} {isSpec : Bool} {scc : List ℕ}
  {r : Option (List ℕ) × Server}

theorem sccReady_sameStore (h : s.sccReady site now v = some r) : SameStore s r.2 := by
  rw [Server.sccReady] at h
  simp only at h
  split at h
  · obtain ⟨found, -, h⟩ := bind_eq_some_iff.mp h
    obtain ⟨fns, -, rfl⟩ := map_eq_some_iff.mp h
    split <;> exact ⟨rfl, rfl⟩
  · obtain rfl := some.inj h
    exact ⟨rfl, rfl⟩

theorem lookAt_sameStore (h : s.lookAt site now v = some r) : SameStore s r.2 := by
  obtain ⟨d, -, h⟩ := bind_eq_some_iff.mp h
  have hpre : SameStore s (Server.inquireAboutIfNeeded site.parId v (d.involve site.parId).2
      (s.setDtxns (s.dtxns.set v (d.involve site.parId).2))) := by
    rw [Server.inquireAboutIfNeeded]
    split <;> exact ⟨rfl, rfl⟩
  simp only at h
  split at h
  · obtain ⟨hstore, horders⟩ := sccReady_sameStore h
    exact ⟨hstore.trans hpre.1, horders.trans hpre.2⟩
  · obtain rfl := some.inj h
    exact hpre

theorem leave_sameStore (h : s.leave site v = some s') : SameStore s s' := by
  obtain ⟨d, -, rfl⟩ := map_eq_some_iff.mp h
  split
  · exact ⟨rfl, rfl⟩
  · split <;> exact ⟨rfl, rfl⟩

theorem tryExecReadyPieces_orders (h : s.tryExecReadyPieces site t isSpec = some s') :
    s'.orders = s.orders := by
  obtain ⟨d, -, -, ⟨-, rfl⟩ | ⟨-, w, ret, d', -, -, rfl⟩⟩ := tryExecReadyPieces_cases h <;> rfl

theorem executeScc_orders (h : s.executeScc site scc = some s') : s'.orders = s.orders := by
  obtain ⟨st, hst, rfl⟩ := map_eq_some_iff.mp h
  refine run_inv (P := fun st : Server × Bool => st.1.orders = s.orders) (fun st v st' hs hm => ?_)
    (s := (s, false)) rfl hst
  obtain ⟨s1, d, h1, -, heq | ⟨-, heq⟩⟩ := executeMember_cases hm
  · rw [heq, tryExecReadyPieces_orders h1, hs]
  · rw [heq]
    exact (tryExecReadyPieces_orders h1).trans hs

/-- The same transactions, changed at most where a look may change them. -/
def SameCore (g g' : Dtxns) : Prop := Dict.Rel (fun _ d d' => d'.core = d.core) g g'

theorem SameCore.trans {a b c : Dtxns} (h : SameCore a b) (h' : SameCore b c) : SameCore a c :=
  Dict.Rel.trans h h' fun _ _ _ _ hab hbc => hbc.trans hab

theorem Looked.sameCore {N : ℕ → Prop} {g g' : Dtxns} (h : Looked N g g') : SameCore g g' :=
  Dict.Rel.mono h fun _ _ _ hd => hd.core

theorem findSccPred_sameCore {g g' : Dtxns} (h : findSccPred g v = some (scc, g')) :
    SameCore g g' := (findSccPred_rel h).mono fun _ _ _ hd => by rcases hd with rfl | rfl <;> rfl

theorem decideScc_sameCore (scc : List ℕ) (g : Dtxns) : SameCore g (decideScc scc g) :=
  (decideScc_rel scc g).mono fun _ _ _ hd => by rcases hd with rfl | ⟨-, rfl⟩ <;> rfl

theorem lookAt_sameCore (h : s.lookAt site now v = some r) : SameCore s.dtxns r.2.dtxns := by
  rcases lookAt_cases h with ⟨-, hr⟩ | ⟨g1, scc, g2, fns, h1, hf, hfns, hr, -⟩
  · exact hr.sameCore
  · exact ((h1.sameCore.trans (findSccPred_sameCore hf)).trans
      (decideScc_sameCore scc g2)).trans ((allAncFns_looked hfns).trans hr).sameCore

/-- The same transactions, each with the parents it had. -/
def SameParents (g g' : Dtxns) : Prop := Dict.Rel (fun _ d d' => d'.parents = d.parents) g g'

theorem SameParents.refl (g : Dtxns) : SameParents g g :=
  rel_refl (R := fun _ (d d' : RccDTxn) => d'.parents = d.parents) (fun _ _ => rfl) g

theorem SameParents.trans {a b c : Dtxns} (h : SameParents a b) (h' : SameParents b c) :
    SameParents a c := Dict.Rel.trans h h' fun _ _ _ _ hab hbc => hbc.trans hab

theorem SameCore.sameParents {g g' : Dtxns} (h : SameCore g g') : SameParents g g' :=
  Dict.Rel.mono h fun _ d d' hd =>
    show d'.core.parents = d.core.parents from congrArg (fun d => d.parents) hd

theorem checkEntry_frame (h : s.checkEntry site now v = some s') :
    SameParents s.dtxns s'.dtxns ∧ s'.orders = s.orders := by
  obtain ⟨r, s1, hlook, hexec, hleave, hleft⟩ := checkEntry_cases h
  have hmid : SameParents r.2.dtxns s1.dtxns ∧ s1.orders = r.2.orders := by
    rcases hexec with ⟨-, rfl⟩ | ⟨scc, -, hrun⟩
    · exact ⟨SameParents.refl _, rfl⟩
    · exact ⟨(executeScc_kept hrun).mono fun _ _ _ hd => hd.parents, executeScc_orders hrun⟩
  refine ⟨((lookAt_sameCore hlook).sameParents.trans hmid.1).trans hleft.sameCore.sameParents, ?_⟩
  rw [(leave_sameStore hleave).2, hmid.2, (lookAt_sameStore hlook).2]

theorem checkWaitlist_frame {clock : ℕ → ℕ → ℕ} {layout : List ℕ}
    (h : s.checkWaitlist site clock layout = some s') :
    SameParents s.dtxns s'.dtxns ∧ s'.orders = s.orders := by
  refine run_inv (P := fun s' : Server => SameParents s.dtxns s'.dtxns ∧ s'.orders = s.orders)
    (fun s1 v s2 hs hstep => ?_) ⟨SameParents.refl _, rfl⟩ h
  split at hstep
  · obtain ⟨hpar, hord⟩ := checkEntry_frame hstep
    exact ⟨hs.1.trans hpar, hord.trans hs.2⟩
  · obtain rfl := some.inj hstep
    exact hs

end Rest

/-! ### Runs of looks -/

/-- A look at `v`, with the times read in it. -/
structure Check where
  v : ℕ
  now : ℕ → ℕ

def Server.checkStep (site : Site) (s : Server) (e : Check) : Option Server :=
  s.checkEntry site e.now e.v

/-- However the waitlist is walked, no look at a transaction changes a dependency or hands over an
    order. -/
theorem checks_frame (site : Site) (s : Server) (es : List Check) : Throughout (Server.checkStep site)
    (fun s' => SameParents s.dtxns s'.dtxns ∧ s'.orders = s.orders) s es := by
  refine throughout_of_inv (fun s1 e s2 hs _ h => ?_) ⟨SameParents.refl _, rfl⟩ (along_true s es)
  obtain ⟨hpar, hord⟩ := checkEntry_frame h
  exact ⟨hs.1.trans hpar, hord.trans hs.2⟩

theorem checkWaitlist_run {site : Site} {clock : ℕ → ℕ → ℕ} :
    ∀ {layout : List ℕ} {s s' : Server}, s.checkWaitlist site clock layout = some s' →
      ∃ es, run (Server.checkStep site) s es = some s'
  | [], s, _, h => ⟨[], h⟩
  | v :: layout, s, s', h => by
    obtain ⟨t, ht, h⟩ := run_cons.mp h
    obtain ⟨es, hes⟩ := checkWaitlist_run h
    split at ht
    · exact ⟨⟨v, clock v⟩ :: es, run_cons.mpr ⟨t, ht, hes⟩⟩
    · obtain rfl := some.inj ht
      exact ⟨es, hes⟩

end Fiss.Rcc
