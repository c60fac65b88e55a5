import Fiss.Brq.Phases

/-! The requests of a coordinator's phases and their answers: which of them belong to the current
    phase, that each replica of the attempt's partitions has one, and how many have answered. -/

namespace Fiss.Brq.Coordinator
open Fiss.Rcc List Nat
open Ledger (mem_all_send mem_all_answer mem_all_of_outstanding mem_all_of_answered)
open BrqCoord (phaseOf)

/-! ### Phase numbers -/

theorem phaseOf_succ (n : ℕ) : phaseOf (n + 1) =
    match phaseOf n with
    | .initEnd => .dispatch
    | .dispatch => .prepare
    | .prepare => .preAccept
    | .preAccept => .accept
    | .accept => .commit
    | .commit => .initEnd := by
  have hlt : n % 6 < 6 := mod_lt n (by decide)
  rw [phaseOf, phaseOf, add_mod]
  interval_cases n % 6 <;> rfl

/-- The order of the phases of an attempt; `INIT_END` is also where it has ended. -/
def rank : BrqCoord.Phase → ℕ
  | .dispatch => 1
  | .prepare => 2
  | .preAccept => 3
  | .accept => 4
  | .commit => 5
  | .initEnd => 6

theorem rank_inj {p q : BrqCoord.Phase} (h : rank p = rank q) : p = q := by
  cases p <;> cases q <;> first | rfl | cases h

/-! ### Requests and acknowledgements -/

def stamp (r : Request) : Stamp := ⟨r.txn, rank r.kind, r.phase⟩

/-- A phase of attempt `t`. -/
def now (t phase : ℕ) : Stamp := ⟨t, rank (phaseOf phase), phase⟩

/-- The request of the phase to a replica. -/
def request (t phase par replica : ℕ) : Request := ⟨phaseOf phase, t, phase, par, replica⟩

/-- A request of this kind, of attempt `t`, to partition `par`. -/
def mine (kind : BrqCoord.Phase) (t par : ℕ) (r : Request) : Bool :=
  r.kind = kind && r.txn = t && r.par = par

/-- What partition `par` has answered. -/
def heard (kind : BrqCoord.Phase) (t par : ℕ) (l : Ledger Request Graph) : List (Request × Graph) :=
  l.answered.filter fun e => mine kind t par e.1

/-- A reply to a pre-accept has the vertex of the attempt, with the partition it comes from among
    those of the attempt. -/
def Reply (L : Layout) (r : Request) (graph : Graph) : Prop :=
  ∃ v, graph.find r.txn = some v ∧ r.par ∈ v.partition ∧ ∀ q ∈ v.partition, q ∈ L.touched r.txn

/-- The phases that send requests. -/
def Asks (kind : BrqCoord.Phase) : Prop := kind = .preAccept ∨ kind = .accept ∨ kind = .commit

structure Mail (L : Layout) (l : Ledger Request Graph) (next : ℕ) : Prop where
  kinds : ∀ r ∈ l.all, Asks r.kind
  sound : ∀ r ∈ l.all, r.par ∈ L.touched r.txn ∧ r.replica < L.size r.par
  fresh : ∀ r ∈ l.all, r.txn < next
  replies : ∀ e ∈ l.answered, e.1.kind = .preAccept → Reply L e.1 e.2

/-- Every replica of the attempt's partitions has been sent the request of this phase. -/
abbrev Polled (L : Layout) (l : Ledger Request Graph) (t phase : ℕ) : Prop :=
  Fiss.Polled (mine (phaseOf phase) t) (request t phase) L.size (L.touched t).elems l

section Requests

variable {L : Layout} {l : Ledger Request Graph} {kind : BrqCoord.Phase} {t phase par next : ℕ}
  {r : Request} {graph : Graph} {pars : List ℕ}

theorem mine_iff : mine kind t par r = true ↔ r.kind = kind ∧ r.txn = t ∧ r.par = par := by
  simp [mine, and_assoc]

theorem mine_request {par' k : ℕ} :
    mine (phaseOf phase) t par (request t phase par' k) = true ↔ par' = par :=
  mine_iff.trans ((and_iff_right rfl).trans (and_iff_right rfl))

theorem stamp_eq (h : stamp r = now t phase) :
    r.phase = phase ∧ r.txn = t ∧ r.kind = phaseOf phase :=
  ⟨congrArg Stamp.phase h, congrArg Stamp.attempt h, rank_inj (congrArg Stamp.rank h)⟩

theorem not_mine (h : (now t phase).Before (stamp r)) (par : ℕ) :
    mine (phaseOf phase) t par r = false := by
  refine eq_false_of_ne_true fun hm => ?_
  obtain ⟨hkind, htxn, -⟩ := mine_iff.mp hm
  have hlater : r.txn < t ∨ r.txn = t ∧ rank r.kind < rank (phaseOf phase) := h.2
  rw [hkind, htxn] at hlater
  omega

theorem heard_answer (kind : BrqCoord.Phase) (t par : ℕ) (l : Ledger Request Graph) (r : Request)
    (graph : Graph) : heard kind t par (l.answer r graph) =
      heard kind t par l ++ if mine kind t par r then [(r, graph)] else [] := by
  rw [heard, Ledger.answer, filter_append, heard, filter_cons, filter_nil]

theorem Mail.answer (h : Mail L l next) (hr : r ∈ l.outstanding)
    (hreply : r.kind = .preAccept → Reply L r graph) : Mail L (l.answer r graph) next :=
  ⟨fun x hx => h.kinds x ((mem_all_answer hr).mp hx),
    fun x hx => h.sound x ((mem_all_answer hr).mp hx),
    fun x hx => h.fresh x ((mem_all_answer hr).mp hx),
    forall_mem_concat h.replies hreply⟩

theorem Mail.mono (h : Mail L l next) {next' : ℕ} (hle : next ≤ next') : Mail L l next' :=
  ⟨h.kinds, h.sound, fun r hr => (h.fresh r hr).trans_le hle, h.replies⟩

theorem heard_stale (h : Ordered stamp (now t phase) l) (hr : r ∈ l.outstanding)
    (hne : r.phase ≠ phase) (graph : Graph) (par : ℕ) :
    heard (phaseOf phase) t par (l.answer r graph) = heard (phaseOf phase) t par l := by
  rcases h.order r (mem_all_of_outstanding hr) with hbefore | heq
  · rw [heard_answer, not_mine hbefore, if_neg Bool.false_ne_true, append_nil]
  · exact absurd (stamp_eq heq).1 hne

theorem length_heard (h : Polled L l t phase) (hpar : par ∈ L.touched t) :
    (heard (phaseOf phase) t par l).length ≤ L.size par :=
  countP_eq_length_filter.symm.trans_le (h.answered_le hpar)

theorem heard_all (h : Polled L l t phase) (hpar : par ∈ L.touched t)
    (hlen : L.size par ≤ (heard (phaseOf phase) t par l).length) {k : ℕ}
    (hk : k < L.size par) : ∃ graph, (request t phase par k, graph) ∈
      heard (phaseOf phase) t par l := by
  obtain ⟨graph, hgraph⟩ :=
    h.exists_answer mine_request hpar (hlen.trans_eq countP_eq_length_filter.symm) hk
  exact ⟨graph, mem_filter.mpr ⟨hgraph, mine_request.mpr rfl⟩⟩

theorem nodup_replicas (h : Ordered stamp (now t phase) l) (par : ℕ) :
    ((heard (phaseOf phase) t par l).map fun e => e.1.replica).Nodup := by
  have hreqs : ((heard (phaseOf phase) t par l).map Prod.fst).Nodup :=
    (filter_sublist.map Prod.fst).nodup (nodup_append.mp h.nodup).1
  have hmap : ((heard (phaseOf phase) t par l).map fun e => e.1.replica) =
      ((heard (phaseOf phase) t par l).map Prod.fst).map Request.replica := by
    rw [map_map]
    rfl
  rw [hmap]
  refine List.Nodup.map_on (fun a ha b hb hab => ?_) hreqs
  -- of requests of one phase to one partition the replica is all that is not the same
  have hnow : ∀ x ∈ (heard (phaseOf phase) t par l).map Prod.fst,
      x.phase = phase ∧ x.txn = t ∧ x.kind = phaseOf phase ∧ x.par = par := by
    intro x hx
    obtain ⟨e, he, rfl⟩ := mem_map.mp hx
    obtain ⟨hmem, hmine⟩ := mem_filter.mp he
    rcases h.order e.1 (mem_all_of_answered hmem) with hbefore | heq
    · rw [not_mine hbefore] at hmine
      cases hmine
    · obtain ⟨hphase, htxn, hkind⟩ := stamp_eq heq
      exact ⟨hphase, htxn, hkind, (mine_iff.mp hmine).2.2⟩
  obtain ⟨h1, h2, h3, h4⟩ := hnow a ha
  obtain ⟨g1, g2, g3, g4⟩ := hnow b hb
  cases a
  cases b
  simp_all

theorem mem_requests {c : Coordinator} (hr : r ∈ c.requests L (phaseOf c.phase) pars) :
    stamp r = now c.txnId c.phase ∧ r.par ∈ pars ∧ r.replica < L.size r.par := by
  obtain ⟨par, hpar, k, hk, rfl⟩ := mem_poll.mp hr
  exact ⟨rfl, hpar, hk⟩

theorem nodup_elems (s : OrdSet ℕ) : s.elems.Nodup := s.sorted.imp fun h => h.ne

theorem nodup_requests (c : Coordinator) (hpars : pars.Nodup) : (c.requests L kind pars).Nodup :=
  nodup_poll (fun h => (Request.mk.inj h).2.2.2) hpars

section Broadcast

variable {c : Coordinator}

/-- The requests of the current phase are sent. -/
def polling (L : Layout) (c : Coordinator) : Ledger Request Graph :=
  c.ledger.send (c.requests L (phaseOf c.phase) (L.touched c.txnId).elems)

theorem Mail.broadcast (hmail : Mail L c.ledger c.nextTxnId) (hlt : c.txnId < c.nextTxnId)
    (hasks : Asks (phaseOf c.phase)) : Mail L (c.polling L) c.nextTxnId := by
  refine ⟨fun r hr => ?_, fun r hr => ?_, fun r hr => ?_, hmail.replies⟩
  · rcases mem_all_send.mp hr with hr | hr
    · exact hmail.kinds r hr
    · exact (stamp_eq (mem_requests hr).1).2.2 ▸ hasks
  · rcases mem_all_send.mp hr with hr | hr
    · exact hmail.sound r hr
    · obtain ⟨hstamp, hpar, hk⟩ := mem_requests hr
      exact ⟨(stamp_eq hstamp).2.1 ▸ hpar, hk⟩
  · rcases mem_all_send.mp hr with hr | hr
    · exact hmail.fresh r hr
    · exact (stamp_eq (mem_requests hr).1).2.1 ▸ hlt

section
variable (hold : ∀ r ∈ c.ledger.all, (now c.txnId c.phase).Before (stamp r))
include hold

theorem ordered_broadcast (hnodup : c.ledger.all.Nodup) :
    Ordered stamp (now c.txnId c.phase) (c.polling L) :=
  (Ordered.of_before hnodup hold).send (nodup_requests c (nodup_elems _))
    (fun r hr hall => (hold r hall).ne (mem_requests hr).1) fun _ hr => (mem_requests hr).1

theorem polled_broadcast : Polled L (c.polling L) c.txnId c.phase :=
  .send mine_request (nodup_elems _) fun r hr par => by
    rw [not_mine (hold r hr)]
    exact Bool.false_ne_true

theorem heard_broadcast (par : ℕ) : heard (phaseOf c.phase) c.txnId par (c.polling L) = [] := by
  refine filter_eq_nil_iff.mpr fun e he => ?_
  rw [not_mine (hold e.1 (mem_all_of_answered he))]
  exact Bool.false_ne_true

end

end Broadcast

end Requests

end Fiss.Brq.Coordinator
