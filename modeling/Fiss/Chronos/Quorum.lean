import Fiss.Chronos.Ready
import Fiss.Chronos.Subject

/-! When a transaction of the region is durable. Its coordinator sends it to every other replica of the
    partitions it touches, and lets it be executed once each of these partitions has acknowledged
    often enough.

    The number asked for, `(n_replicas - 1) / 2`, is what the coordinator needs besides itself in its
    own partition if the number of replicas is odd. It is asked of the other partitions too. -/

namespace Fiss.Chronos
open Fiss.Rcc List Function OrdSet OrdMap Nat TxChronos Sched
open Option (some.inj map_some map_eq_some_iff)
open Function (update_self update_of_ne)

/-- The site has the pieces of the transaction. -/
def Holds (id : ℕ) (s : Sched) : Prop := ∃ d ∈ s.dtxns.find id, d.callback ≠ .unset

instance (id : ℕ) : DecidablePred (Holds id) := fun _ => inferInstanceAs (Decidable (∃ d ∈ _, _))

section Step

variable {site : Site} {s s' : Sched} {e : Event} {id : ℕ} {d d' : TxChronos}

theorem Change.set (h : Change d d') (hd : d.callback ≠ .unset) : d'.callback ≠ .unset := by
  cases h with
  | same h => exact h.callback ▸ hd
  | deliver cmds callback hset h => exact h.callback ▸ hset
  | merge values h => exact h.callback ▸ hd

theorem step_holds (h : Holds id s) (hs : step site s e = some s') : Holds id s' := by
  obtain ⟨d, hd, hset⟩ := h
  rcases Classical.em (e = .check) with rfl | he
  · obtain ⟨d', hd', hk⟩ := (check_since hs).kept.find hd
    exact ⟨d', hd', hk.callback ▸ hset⟩
  · have hquiet := step_quiet he hs
    obtain ⟨d', hd'⟩ := Option.isSome_iff_exists.mp
      (hquiet.known id (Option.isSome_iff_exists.mpr ⟨d, hd⟩))
    refine ⟨d', hd', ?_⟩
    rcases hquiet.records id d' hd' with heq | hchange
    · rw [some.inj (heq.symm.trans hd)]
      exact hset
    · rw [record_of_find hd] at hchange
      exact hchange.set hset

end Step

/-! ### The region -/

/-- A transaction submitted to its coordinator, which has pieces for every partition it touches. Each of
    these has `n_replicas` sites, and no site is a replica of two of them. -/
structure Submission where
  site : ℕ → Site
  coord : ℕ
  id : ℕ
  cmdsByPar : Cmds
  siteId : (site coord).siteId = coord
  own : (site coord).parId ∈ cmdsByPar.keys
  pieces : ∀ e ∈ cmdsByPar.entries, e.2 ≠ []
  replicas : ∀ par ∈ cmdsByPar.keys, ((site coord).sitesOf par).length = (site coord).nReplicas
  nodup : ∀ par ∈ cmdsByPar.keys, ((site coord).sitesOf par).Nodup
  apart : ∀ par ∈ cmdsByPar.keys, ∀ par' ∈ cmdsByPar.keys, ∀ x ∈ (site coord).sitesOf par,
    x ∈ (site coord).sitesOf par' → par = par'
  coord_mem : coord ∈ (site coord).sitesOf (site coord).parId

/-- The schedulers of all sites. -/
abbrev Net := ℕ → Sched

/-- A site does something on its own account, or the coordinator is told that one has stored the
    transaction. -/
inductive NetEvent where
  | event (x : ℕ) (e : Event)
  | ack (par x : ℕ)

namespace Submission

section

variable (R : Submission) (n : Net)

/-- The site of the coordinator. -/
def me : Site := R.site R.coord

/-- The partitions touched. -/
def pars : List ℕ := R.cmdsByPar.keys

/-- What a site may do on its own account: it stores the transaction when the coordinator has sent it,
    and takes it for no other one. -/
def Allowed (x : ℕ) : Event → Prop
  | .prepareIRT id cmds ts => id = R.id → Msg.prepareIRT x id cmds ts ∈ (n R.coord).sent
  | e => e.claims ≠ some R.id

instance (R : Submission) (n : Net) (x : ℕ) : (e : Event) → Decidable (R.Allowed n x e)
  | .prepareIRT id _ _ => inferInstanceAs (Decidable (id = R.id → _))
  | .handleIRT .. | .piggy .. | .irtAck .. | .submitCRT .. | .remotePrepared .. | .prepareCRT ..
  | .distExe .. | .sendOutput .. | .distExeAck .. | .notiCRT .. | .notiCommit .. | .tick ..
  | .check => inferInstanceAs (Decidable (Event.claims _ ≠ some R.id))

/-- One step of the region. -/
def netStep : NetEvent → Option Net
  | .event x e =>
    if R.Allowed n x e then (step (R.site x) (n x) e).map (update n x) else none
  | .ack par x =>
    if par ∈ R.pars ∧ x ∈ R.me.sitesOf par ∧ x ≠ R.coord ∧ Holds R.id (n x) then
      (step R.me (n R.coord) (.irtAck R.id par x)).map (update n R.coord)
    else none

/-- `HandleIRT` has just returned at the coordinator. -/
def Starts : Prop :=
  ∃ s nows, step R.me s (.handleIRT R.id R.cmdsByPar nows) = some (n R.coord)

/-- The phase the coordinator has the transaction in. -/
def phase : Option TxnPhase := (n R.coord).phaseOf R.id

/-- The replicas of a partition that have the transaction. -/
def holders (par : ℕ) : List ℕ :=
  (R.me.sitesOf par).filter fun x => Holds R.id (n x)

def Majority (par : ℕ) : Prop :=
  R.me.nReplicas < 2 * (R.holders n par).length

instance (R : Submission) (n : Net) (par : ℕ) : Decidable (R.Majority n par) :=
  inferInstanceAs (Decidable (_ < _))

/-- The acknowledgement that makes the transaction executable finds it at a majority of the replicas of
    every partition touched. -/
def Durable : Prop :=
  ∀ n0 es n, R.Starts n0 → run R.netStep n0 es = some n → ∀ par x n',
    R.netStep n (.ack par x) = some n' → R.phase n ≠ some .localCanExe →
      R.phase n' = some .localCanExe → ∀ p ∈ R.pars, R.Majority n' p

/-- Only the coordinator's partition is touched, and it has an odd number of replicas or two; or there
    is one replica of each, and at most one other partition. -/
def Safe : Prop :=
  (∀ par ∈ R.pars, par = R.me.parId) ∧ (R.me.nReplicas % 2 = 1 ∨ R.me.nReplicas = 2) ∨
    R.me.nReplicas = 1 ∧ R.pars.length ≤ 2

end

section Net

variable {R : Submission} {n : Net} {par x : ℕ}

theorem Allowed.claims {ev : Event} (h : R.Allowed n x ev) : ev.claims ≠ some R.id := by
  cases ev with
  | prepareIRT id cmds ts => exact fun h => by cases h
  | _ => exact h

theorem netStep_event {ev : Event} {s' : Sched} (hok : R.Allowed n x ev)
    (hs : step (R.site x) (n x) ev = some s') :
    R.netStep n (.event x ev) = some (update n x s') := by
  rw [netStep, if_pos hok, hs, map_some]

theorem netStep_ack {s' : Sched}
    (hok : par ∈ R.pars ∧ x ∈ R.me.sitesOf par ∧ x ≠ R.coord ∧ Holds R.id (n x))
    (hs : step R.me (n R.coord) (.irtAck R.id par x) = some s') :
    R.netStep n (.ack par x) = some (update n R.coord s') := by
  rw [netStep, if_pos hok, hs, map_some]

theorem holds_update {s' : Sched} {ev : Event} {id y : ℕ} (h : Holds id (n y))
    (hs' : step (R.site x) (n x) ev = some s') : Holds id (update n x s' y) := by
  rcases eq_or_ne y x with rfl | hne
  · rw [update_self]
    exact step_holds h hs'
  · rw [update_of_ne hne]
    exact h

end Net

/-! ### The table of acknowledgements -/

/-- The partitions, each with the sites that have acknowledged. -/
def ackTable (pars : List ℕ) (A : ℕ → OrdSet ℕ) : Dict ℕ (OrdSet ℕ) := ⟨pars.map fun p => (p, A p)⟩

section Table

variable {pars : List ℕ} {A : ℕ → OrdSet ℕ} {par x : ℕ} {d : TxChronos} {site : Site}

theorem find_ackTable (h : par ∈ pars) : (ackTable pars A).find par = some (A par) := by
  induction pars with
  | nil => exact absurd h not_mem_nil
  | cons p l ih =>
    show List.lookup par ((p, A p) :: l.map fun p => (p, A p)) = some (A par)
    rw [lookup_cons_ite]
    split
    · next heq => rw [heq]
    · next hne => exact ih ((mem_cons.mp h).resolve_left hne)

theorem set_ackTable (h : par ∈ pars) (v : OrdSet ℕ) :
    (ackTable pars A).set par v = ackTable pars (update A par v) := by
  rw [Dict.set, Dict.insert, find_ackTable h, Option.isSome_some, if_pos rfl, Dict.modify, ackTable,
    ackTable, map_map]
  refine congrArg Dict.mk (map_congr_left fun p _ => ?_)
  show (if p = par then (p, v) else (p, A p)) = (p, update A par v p)
  split
  · next heq => rw [heq, update_self]
  · next hne => rw [update_of_ne hne]

theorem addAck_table (hd : d.distPartitionAcks = ackTable pars A) (h : par ∈ pars) :
    (d.addAck par x).distPartitionAcks = ackTable pars (update A par ((A par).insert x)) := by
  show d.distPartitionAcks.set par ((d.acks par).insert x) = _
  rw [acks, hd, find_ackTable h, Option.getD_some, set_ackTable h]

theorem mem_addAck {p y : ℕ} :
    y ∈ update A par ((A par).insert x) p ↔ p = par ∧ y = x ∨ y ∈ A p := by
  rcases eq_or_ne p par with rfl | hne
  · rw [update_self, mem_insert, and_iff_right rfl]
  · rw [update_of_ne hne]
    exact ⟨.inr, fun h => h.resolve_left fun heq => hne heq.1⟩

theorem majority_table (hd : d.distPartitionAcks = ackTable pars A) :
    d.allParMajorityAcks site = true ↔
      ∀ p ∈ pars, (site.nReplicas - 1) / 2 ≤ (A p).elems.length := by
  rw [allParMajorityAcks, hd, ackTable, all_map, all_eq_true]
  exact forall₂_congr fun p _ => decide_eq_true_iff

end Table

/-! ### What is acknowledged is held -/

section

variable {R : Submission} {n n' : Net} {e : NetEvent} {par x : ℕ} {A : ℕ → OrdSet ℕ}

/-- The coordinator has the transaction, and an acknowledgement of it from no site but those that
    have. -/
structure Backed (R : Submission) (n : Net) (A : ℕ → OrdSet ℕ) : Prop where
  own : Holds R.id (n R.coord)
  record : ∃ d, (n R.coord).dtxns.find R.id = some d ∧ d.distPartitionAcks = ackTable R.pars A
  held : ∀ par, ∀ x ∈ A par, x ∈ R.me.sitesOf par ∧ x ≠ R.coord ∧ Holds R.id (n x)

theorem Starts.backed (h : R.Starts n) : R.Backed n fun _ => ∅ := by
  obtain ⟨s, nows, h⟩ := h
  obtain ⟨cmds, ts, c, -, -, -, heq⟩ := handleIRT_eq h
  have hfind : (n R.coord).dtxns.find R.id = some (irt R.me R.pars cmds ts) := by
    rw [heq]
    exact Dict.find_set_self _ _ _
  exact ⟨⟨_, hfind, fun h => by cases h⟩, ⟨_, hfind, rfl⟩,
    fun _ x hx => absurd hx (notMem_empty x)⟩

theorem Backed.ack (h : R.Backed n A) (hs : R.netStep n (.ack par x) = some n') :
    par ∈ R.pars ∧ ∃ d, (n R.coord).dtxns.find R.id = some d ∧
      (d.chrPhase = .localCanExe ∧ n' = n ∨ d.chrPhase ≠ .localCanExe ∧
        (n' R.coord).dtxns.find R.id = some ((d.addAck par x).settle R.me) ∧
        R.Backed n' (update A par ((A par).insert x))) := by
  obtain ⟨hok, hs⟩ := Option.ite_none_right_eq_some.mp hs
  obtain ⟨s', hs', rfl⟩ := map_eq_some_iff.mp hs
  obtain ⟨hpar, hx, hne, hholds⟩ := hok
  obtain ⟨d, hd, hacks⟩ := h.record
  obtain ⟨d1, hd1, hcase⟩ := irtAck_eq hs'
  obtain rfl : d = d1 := some.inj (hd.symm.trans hd1)
  refine ⟨hpar, d, hd, ?_⟩
  rcases hcase with ⟨hphase, rfl⟩ | ⟨hphase, rfl⟩
  · exact .inl ⟨hphase, update_eq_self R.coord n⟩
  · have hfind : (update n R.coord ((n R.coord).put R.id ((d.addAck par x).settle R.me))
        R.coord).dtxns.find R.id = some ((d.addAck par x).settle R.me) := by
      rw [update_self]
      exact Dict.find_set_self _ _ _
    refine .inr ⟨hphase, hfind, holds_update h.own hs', ⟨_, hfind, ?_⟩, fun p y hy => ?_⟩
    · rw [acks_settle, addAck_table hacks hpar]
    · rcases mem_addAck.mp hy with ⟨rfl, rfl⟩ | hy
      · exact ⟨hx, hne, holds_update hholds hs'⟩
      · obtain ⟨hmem, hcoord, hh⟩ := h.held p y hy
        exact ⟨hmem, hcoord, holds_update hh hs'⟩

theorem netStep_backed (h : R.Backed n A) (hs : R.netStep n e = some n') : ∃ A', R.Backed n' A' := by
  cases e with
  | event x ev =>
    obtain ⟨hok, hs⟩ := Option.ite_none_right_eq_some.mp hs
    obtain ⟨s', hs', rfl⟩ := map_eq_some_iff.mp hs
    obtain ⟨d, hd, hacks⟩ := h.record
    refine ⟨A, holds_update h.own hs', ?_, fun p y hy => ?_⟩
    · rcases eq_or_ne R.coord x with heq | hne
      · subst heq
        obtain ⟨d', hd', hacks', -⟩ := step_unclaimed hok.claims hs' hd
        rw [update_self]
        exact ⟨d', hd', hacks'.trans hacks⟩
      · rw [update_of_ne hne]
        exact ⟨d, hd, hacks⟩
    · obtain ⟨hmem, hcoord, hh⟩ := h.held p y hy
      exact ⟨hmem, hcoord, holds_update hh hs'⟩
  | ack par x =>
    obtain ⟨-, d, -, ⟨-, rfl⟩ | ⟨-, -, hb⟩⟩ := h.ack hs
    · exact ⟨A, h⟩
    · exact ⟨_, hb⟩

theorem Backed.count (h : R.Backed n A) (par : ℕ) :
    (A par).elems.length + (if par = R.me.parId then 1 else 0) ≤ (R.holders n par).length := by
  have hnodup : (A par).elems.Nodup := (A par).sorted.imp fun h => ne_of_lt h
  have hsub : ∀ y ∈ (A par).elems, y ∈ R.holders n par := fun y hy => by
    obtain ⟨hmem, -, hh⟩ := h.held par y hy
    exact mem_filter.mpr ⟨hmem, decide_eq_true hh⟩
  split
  · next hown =>
    have hcons : (R.coord :: (A par).elems).Nodup :=
      nodup_cons.mpr ⟨fun hmem => (h.held par R.coord hmem).2.1 rfl, hnodup⟩
    refine (subperm_of_subset hcons (forall_mem_cons.mpr ⟨?_, hsub⟩)).length_le
    exact mem_filter.mpr ⟨hown ▸ R.coord_mem, decide_eq_true h.own⟩
  · exact (subperm_of_subset hnodup hsub).length_le

theorem Backed.moved (h : R.Backed n A) (hs : R.netStep n (.ack par x) = some n')
    (hbefore : R.phase n ≠ some .localCanExe) (hafter : R.phase n' = some .localCanExe) :
    par ∈ R.pars ∧ ∃ A', R.Backed n' A' ∧ x ∈ A' par ∧
      ∀ p ∈ R.pars, (R.me.nReplicas - 1) / 2 ≤ (A' p).elems.length := by
  obtain ⟨d, hd, hacks⟩ := h.record
  obtain ⟨hpar, d1, hd1, ⟨-, rfl⟩ | ⟨hphase, hfind, hb⟩⟩ := h.ack hs
  · exact absurd hafter hbefore
  · obtain rfl : d = d1 := some.inj (hd.symm.trans hd1)
    refine ⟨hpar, _, hb, ?_, (majority_table (addAck_table hacks hpar)).mp ?_⟩
    · rw [update_self]
      exact mem_insert.mpr (.inl rfl)
    · by_contra hno
      rw [phase, phaseOf, hfind, map_some, settle, if_neg hno] at hafter
      exact hphase (some.inj hafter)

theorem own_mem (R : Submission) : R.me.parId ∈ R.pars := R.own

theorem nReplicas_own (R : Submission) : (R.me.sitesOf R.me.parId).length = R.me.nReplicas :=
  R.replicas _ R.own_mem

theorem ne_own_of_single (hone : R.me.nReplicas = 1) (hx : x ∈ R.me.sitesOf par) (hne : x ≠ R.coord) :
    par ≠ R.me.parId := by
  rintro rfl
  obtain ⟨y, hy⟩ := length_eq_one_iff.mp (R.nReplicas_own.trans hone)
  have hcoord : R.coord ∈ R.me.sitesOf R.me.parId := R.coord_mem
  rw [hy, mem_singleton] at hcoord hx
  exact hne (hx.trans hcoord.symm)

theorem durable_of_safe (hsafe : R.Safe) : R.Durable := by
  intro n0 es n hstart hrun par x n' hs hbefore hafter p hp
  obtain ⟨A, hA⟩ := run_inv (P := fun n => ∃ A, R.Backed n A)
    (fun _ _ _ h hs => h.elim fun A hA => netStep_backed hA hs) ⟨_, hstart.backed⟩ hrun
  obtain ⟨hpar, A', hA', hx, henough⟩ := hA.moved hs hbefore hafter
  have hcount := hA'.count p
  have hmin := henough p hp
  -- whoever acknowledges is counted
  have hacked : 0 < (A' par).elems.length := length_pos_of_mem hx
  unfold Majority
  rcases hsafe with ⟨hown, hodd | htwo⟩ | ⟨hone, hpars⟩
  · rw [if_pos (hown p hp)] at hcount
    omega
  · obtain rfl : p = par := (hown p hp).trans (hown par hpar).symm
    rw [if_pos (hown p hp)] at hcount
    omega
  · rcases eq_or_ne p R.me.parId with rfl | hother
    · rw [if_pos rfl] at hcount
      omega
    · obtain ⟨hmem, hne, -⟩ := hA'.held par x hx
      have hpar' : par ≠ R.me.parId := ne_own_of_single hone hmem hne
      -- the only other partition
      obtain rfl : p = par := by
        by_contra hpp
        have hsub : [R.me.parId, p, par].Subperm R.pars := by
          refine subperm_of_subset ?_ ?_
          · simp [hother.symm, hpar'.symm, hpp]
          · simp only [cons_subset, nil_subset, and_true]
            exact ⟨R.own, hp, hpar⟩
        have hthree : 3 ≤ R.pars.length := hsub.length_le
        omega
      omega

end

/-! ### Runs that are not durable -/

section

variable {R : Submission} {n : Net} {ts : ChrTs} {l done : List (ℕ × ℕ)} {A : ℕ → OrdSet ℕ}
  {e : ℕ × ℕ} {p x : ℕ}

/-- The sites that are to acknowledge are other replicas of the partitions touched. -/
def Sent (R : Submission) (l : List (ℕ × ℕ)) : Prop :=
  ∀ e ∈ l, e.1 ∈ R.pars ∧ e.2 ∈ R.me.sitesOf e.1 ∧ e.2 ≠ R.coord

/-- Besides the coordinator, only sites of `l` have the transaction. -/
def HeldBy (R : Submission) (l : List (ℕ × ℕ)) (n : Net) : Prop :=
  ∀ x, x ≠ R.coord → Holds R.id (n x) → ∃ q, (q, x) ∈ l

/-- On the way through `l`: the acknowledgements of `done` are in and do not suffice. -/
structure Partway (R : Submission) (ts : ChrTs) (l done : List (ℕ × ℕ)) (n : Net)
    (A : ℕ → OrdSet ℕ) : Prop where
  record : ∃ d, (n R.coord).dtxns.find R.id = some d ∧ d.distPartitionAcks = ackTable R.pars A ∧
    d.chrPhase ≠ .localCanExe
  acks : ∀ p x, x ∈ A p ↔ (p, x) ∈ done
  sent : ∀ e ∈ R.cmdsByPar.entries, ∀ x ∈ R.me.sitesOf e.1, x ≠ R.coord →
    Msg.prepareIRT x R.id e.2 ts ∈ (n R.coord).sent
  free : ∀ x, x ≠ R.coord → ((n x).readyTxns.find ts).getD R.id = R.id
  heldBy : R.HeldBy l n

theorem Partway.phase (h : R.Partway ts l done n A) : R.phase n ≠ some .localCanExe := by
  obtain ⟨d, hd, -, hphase⟩ := h.record
  rw [Submission.phase, phaseOf, hd, map_some]
  exact fun heq => hphase (some.inj heq)

theorem Partway.deliver (h : R.Partway ts l done n A) (hl : R.Sent l) (he : e ∈ l) :
    ∃ ev n1, R.netStep n (.event e.2 ev) = some n1 ∧ R.Partway ts l done n1 A ∧
      Holds R.id (n1 e.2) := by
  obtain ⟨hpar, hx, hne⟩ := hl e he
  obtain ⟨⟨par, cmds⟩, hmem, heq⟩ := mem_map.mp hpar
  obtain rfl : par = e.1 := heq
  have hs : step (R.site e.2) (n e.2) (.prepareIRT R.id cmds ts) = some
      (((n e.2).put R.id (((n e.2).record (R.site e.2) R.id).prepareIRT (R.site e.2) cmds
        ts)).setReady ts R.id) := if_pos ⟨R.pieces _ hmem, h.free e.2 hne⟩
  have hok : R.Allowed n e.2 (.prepareIRT R.id cmds ts) := fun _ => h.sent _ hmem e.2 hx hne
  refine ⟨_, _, netStep_event hok hs,
    ⟨?_, h.acks, ?_, fun x hx => ?_, fun x hx hh => ?_⟩, ?_⟩
  · rw [update_of_ne hne.symm]
    exact h.record
  · rw [update_of_ne hne.symm]
    exact h.sent
  · rcases eq_or_ne x e.2 with rfl | hxe
    · rw [update_self]
      exact congrArg (Option.getD · R.id) (find_set_self _ _ _)
    · rw [update_of_ne hxe]
      exact h.free x hx
  · rcases eq_or_ne x e.2 with rfl | hxe
    · exact ⟨e.1, he⟩
    · rw [update_of_ne hxe] at hh
      exact h.heldBy x hx hh
  · rw [update_self]
    exact ⟨_, Dict.find_set_self _ _ _, fun h => by cases h⟩

/-- It acknowledges: that is enough, or the way goes on. -/
theorem Partway.ack (h : R.Partway ts l done n A) (hl : R.Sent l) (he : e ∈ l)
    (hholds : Holds R.id (n e.2)) : ∃ n' A', R.netStep n (.ack e.1 e.2) = some n' ∧
      R.HeldBy l n' ∧ (∀ p x, x ∈ A' p ↔ (p, x) ∈ done ++ [e]) ∧
      if ∀ p ∈ R.pars, (R.me.nReplicas - 1) / 2 ≤ (A' p).elems.length then
        R.phase n' = some .localCanExe else R.Partway ts l (done ++ [e]) n' A' := by
  obtain ⟨hpar, hx, hne⟩ := hl e he
  obtain ⟨d, hd, hacks, hphase⟩ := h.record
  have hs : step R.me (n R.coord) (.irtAck R.id e.1 e.2) =
      some ((n R.coord).put R.id ((d.addAck e.1 e.2).settle R.me)) := by
    show Option.map _ ((n R.coord).dtxns.find R.id) = _
    rw [hd, map_some, if_neg hphase]
  have htable := addAck_table hacks hpar (x := e.2)
  have hacks' : ∀ p x, x ∈ update A e.1 ((A e.1).insert e.2) p ↔ (p, x) ∈ done ++ [e] := by
    intro p x
    rw [mem_addAck, mem_append, mem_singleton, ← h.acks p x, or_comm, Prod.ext_iff]
  have hheld : R.HeldBy l (update n R.coord
      ((n R.coord).put R.id ((d.addAck e.1 e.2).settle R.me))) := by
    intro x hx hh
    rw [update_of_ne hx] at hh
    exact h.heldBy x hx hh
  have hfind : (update n R.coord ((n R.coord).put R.id ((d.addAck e.1 e.2).settle R.me))
      R.coord).dtxns.find R.id = some ((d.addAck e.1 e.2).settle R.me) := by
    rw [update_self]
    exact Dict.find_set_self _ _ _
  refine ⟨_, update A e.1 ((A e.1).insert e.2), netStep_ack ⟨hpar, hx, hne, hholds⟩ hs, hheld,
    hacks', ?_⟩
  split
  · next henough =>
    rw [Submission.phase, phaseOf, hfind, settle,
      if_pos ((majority_table htable).mpr henough)]
    rfl
  · next hfew =>
    have hsettle : (d.addAck e.1 e.2).settle R.me = d.addAck e.1 e.2 :=
      if_neg fun h => hfew ((majority_table htable).mp h)
    refine ⟨⟨_, hfind, ?_, ?_⟩, hacks', ?_, fun x hx => ?_, hheld⟩
    · rw [acks_settle, htable]
    · rw [hsettle]
      exact hphase
    · rw [update_self]
      exact h.sent
    · rw [update_of_ne hx]
      exact h.free x hx

theorem moved_of_partway {n0 : Net} (hl : R.Sent l) (hfull : ∀ A : ℕ → OrdSet ℕ,
      (∀ p x, x ∈ A p ↔ (p, x) ∈ l) → ∀ p ∈ R.pars, (R.me.nReplicas - 1) / 2 ≤ (A p).elems.length) :
    ∀ (rest : List (ℕ × ℕ)) (es : List NetEvent) {done : List (ℕ × ℕ)} {n : Net} {A : ℕ → OrdSet ℕ},
      rest ≠ [] → l = done ++ rest → R.Partway ts l done n A → run R.netStep n0 es = some n →
      ∃ es n par x n', run R.netStep n0 es = some n ∧ R.netStep n (.ack par x) = some n' ∧
        R.phase n ≠ some .localCanExe ∧ R.phase n' = some .localCanExe ∧ R.HeldBy l n'
  | [], _, _, _, _, hne, _, _, _ => absurd rfl hne
  | e :: rest, es, done, n, A, _, heq, h, hrun => by
    have he : e ∈ l := heq ▸ mem_append_right _ mem_cons_self
    have hsplit : l = (done ++ [e]) ++ rest := by rw [heq, append_assoc]; rfl
    obtain ⟨ev, n1, hev, h1, hholds⟩ := h.deliver hl he
    obtain ⟨n', A', hack, hheld, hacks, hcase⟩ := h1.ack hl he hholds
    have hrun1 : run R.netStep n0 (es ++ [.event e.2 ev]) = some n1 := run_concat.mpr ⟨n, hrun, hev⟩
    split at hcase
    · exact ⟨_, n1, e.1, e.2, n', hrun1, hack, h1.phase, hcase, hheld⟩
    · next hfew =>
      have hrest : rest ≠ [] := by
        rintro rfl
        rw [append_nil] at hsplit
        exact hfew (hfull A' fun p x => hsplit ▸ hacks p x)
      exact moved_of_partway hl hfull rest _ hrest hsplit hcase (run_concat.mpr ⟨n1, hrun1, hack⟩)

theorem handleIRT_new (R : Submission) : ∃ s',
    step R.me (newSched R.me 0) (.handleIRT R.id R.cmdsByPar [0]) = some s' := by
  obtain ⟨⟨par, cmds⟩, hmem, hpar⟩ := mem_map.mp R.own
  have hfind : R.cmdsByPar.find R.me.parId = some cmds := find_eq_some.mpr (hpar ▸ hmem)
  have hhead : R.cmdsByPar.entries.head?.map (fun e => e.2.isEmpty) = some false := by
    cases hentries : R.cmdsByPar.entries with
    | nil =>
      rw [hentries] at hmem
      exact absurd hmem not_mem_nil
    | cons e l =>
      have hpieces : e.2 ≠ [] := R.pieces e (hentries ▸ mem_cons_self)
      exact congrArg some (isEmpty_eq_false_iff.mpr hpieces)
  rw [step, handleIRT, if_pos ⟨hhead, rfl⟩, hfind]
  exact ⟨_, rfl⟩

theorem exists_partway (R : Submission) (l : List (ℕ × ℕ)) : ∃ n0 ts, R.Starts n0 ∧
    R.Partway ts l [] n0 fun _ => ∅ := by
  obtain ⟨s', hs'⟩ := R.handleIRT_new
  obtain ⟨cmds, ts, c, -, -, -, heq⟩ := handleIRT_eq hs'
  let n0 : Net := update (fun x => newSched (R.site x) 0) R.coord s'
  have hcoord : n0 R.coord = s' := update_self _ _ _
  have hother : ∀ x, x ≠ R.coord → n0 x = newSched (R.site x) 0 := fun x hx =>
    update_of_ne hx _ _
  refine ⟨n0, ts, ⟨newSched R.me 0, [0], hcoord ▸ hs'⟩, ?_, fun p x => ?_, fun e he x hx hne => ?_,
    fun x hx => ?_, fun x hx hh => ?_⟩
  · refine ⟨irt R.me R.pars cmds ts, ?_, rfl, fun h => by cases h⟩
    rw [hcoord, heq]
    exact Dict.find_set_self _ _ _
  · exact iff_of_false (notMem_empty x) not_mem_nil
  · rw [hcoord, heq]
    refine mem_append_right _ (mem_flatMap.mpr ⟨e, he, ?_⟩)
    refine mem_map.mpr ⟨x, mem_filter.mpr ⟨hx, decide_eq_true ?_⟩, rfl⟩
    rw [me, R.siteId]
    exact hne
  · rw [hother x hx]
    rfl
  · rw [hother x hx] at hh
    obtain ⟨d, hd, -⟩ := hh
    cases hd

theorem not_durable (hl : R.Sent l) (hne : l ≠ []) (hfull : ∀ A : ℕ → OrdSet ℕ,
      (∀ p x, x ∈ A p ↔ (p, x) ∈ l) → ∀ p ∈ R.pars, (R.me.nReplicas - 1) / 2 ≤ (A p).elems.length)
    (hp : p ∈ R.pars) (hfew : ∀ n, R.HeldBy l n → ¬ R.Majority n p) : ¬ R.Durable := by
  intro hdurable
  obtain ⟨n0, ts, hstart, hway⟩ := R.exists_partway l
  obtain ⟨es, n, par, x, n', hrun, hack, hbefore, hafter, hheld⟩ :=
    moved_of_partway hl hfull l [] hne rfl hway rfl
  exact hfew n' hheld (hdurable n0 es n hstart hrun par x n' hack hbefore hafter p hp)

theorem holders_along (hl : R.Sent l) (hn : R.HeldBy l n) (hp : p ∈ R.pars)
    (hx : x ∈ R.holders n p) : p = R.me.parId ∧ x = R.coord ∨ (p, x) ∈ l := by
  obtain ⟨hmem, hh⟩ := mem_filter.mp hx
  rcases eq_or_ne x R.coord with rfl | hne
  · exact .inl ⟨R.apart p hp R.me.parId R.own R.coord hmem R.coord_mem, rfl⟩
  · obtain ⟨q, hq⟩ := hn x hne (of_decide_eq_true hh)
    obtain ⟨hqpar, hqmem, -⟩ := hl (q, x) hq
    exact .inr (R.apart p hp q hqpar x hmem hqmem ▸ hq)

theorem nodup_holders (R : Submission) (n : Net) (hp : p ∈ R.pars) : (R.holders n p).Nodup :=
  (R.nodup p hp).filter _

theorem not_durable_of_one (hfew : R.me.nReplicas ≤ 2) (hpar : e.1 ∈ R.pars)
    (hx : e.2 ∈ R.me.sitesOf e.1) (hne : e.2 ≠ R.coord) (hp : p ∈ R.pars) (hown : p ≠ R.me.parId)
    (hpar' : p ≠ e.1) : ¬ R.Durable := by
  have hl : R.Sent [e] := fun e' he' => mem_singleton.mp he' ▸ ⟨hpar, hx, hne⟩
  refine not_durable hl (cons_ne_nil e []) (fun A _ q _ => by omega) hp fun n hn hmaj => ?_
  have hnone : R.holders n p = [] := eq_nil_iff_forall_not_mem.mpr fun y hy => by
    rcases holders_along hl hn hp hy with ⟨h, -⟩ | h
    · exact hown h
    · exact hpar' (congrArg Prod.fst (mem_singleton.mp h))
  rw [Majority, hnone] at hmaj
  exact absurd hmaj (not_lt_zero _)

/-- The other replicas of a partition. -/
def others (R : Submission) (p : ℕ) : List ℕ := (R.me.sitesOf p).erase R.coord

theorem mem_others (hp : p ∈ R.pars) : x ∈ R.others p ↔ x ≠ R.coord ∧ x ∈ R.me.sitesOf p :=
  (R.nodup p hp).mem_erase_iff

theorem le_length_others (hp : p ∈ R.pars) : R.me.nReplicas - 1 ≤ (R.others p).length := by
  have hlen : (R.me.sitesOf p).length = R.me.nReplicas := R.replicas p hp
  rw [others, length_erase, hlen]
  split <;> omega

/-- As many of the other replicas as are asked for, in every partition. -/
def firstAcks (R : Submission) : List (ℕ × ℕ) :=
  R.pars.flatMap fun p => ((R.others p).take ((R.me.nReplicas - 1) / 2)).map fun x => (p, x)

theorem mem_firstAcks : (p, x) ∈ R.firstAcks ↔
    p ∈ R.pars ∧ x ∈ (R.others p).take ((R.me.nReplicas - 1) / 2) := by
  rw [firstAcks, mem_flatMap]
  constructor
  · rintro ⟨q, hq, hx⟩
    obtain ⟨y, hy, heq⟩ := mem_map.mp hx
    obtain ⟨rfl, rfl⟩ := Prod.mk.inj heq
    exact ⟨hq, hy⟩
  · rintro ⟨hp, hx⟩
    exact ⟨p, hp, mem_map_of_mem hx⟩

theorem sent_firstAcks (R : Submission) : R.Sent R.firstAcks := fun e he => by
  obtain ⟨hp, hx⟩ := mem_firstAcks.mp he
  obtain ⟨hne, hmem⟩ := (mem_others hp).mp (mem_of_mem_take hx)
  exact ⟨hp, hmem, hne⟩

theorem length_take_others (hp : p ∈ R.pars) :
    ((R.others p).take ((R.me.nReplicas - 1) / 2)).length = (R.me.nReplicas - 1) / 2 := by
  have hlen := le_length_others hp
  rw [length_take]
  omega

theorem not_durable_of_many (hmany : 3 ≤ R.me.nReplicas) (hp : p ∈ R.pars)
    (hfew : p ≠ R.me.parId ∨ R.me.nReplicas % 2 = 0) : ¬ R.Durable := by
  refine not_durable R.sent_firstAcks ?_ (fun A hA q hq => ?_) hp fun n hn hmaj => ?_
  · obtain ⟨x, hx⟩ := exists_mem_of_length_pos (l := (R.others p).take ((R.me.nReplicas - 1) / 2))
      (by rw [length_take_others hp]; omega)
    exact ne_nil_of_mem (mem_firstAcks.mpr ⟨hp, hx⟩)
  · rw [← length_take_others hq]
    refine (subperm_of_subset ?_ fun x hx => ?_).length_le
    · exact ((R.nodup q hq).erase _).sublist (take_sublist _ _)
    · exact (hA q x).mpr (mem_firstAcks.mpr ⟨hq, hx⟩)
  · have hlen := length_take_others hp
    have hsub : (R.holders n p).Subperm
        ((if p = R.me.parId then [R.coord] else []) ++
          (R.others p).take ((R.me.nReplicas - 1) / 2)) := by
      refine subperm_of_subset (R.nodup_holders n hp) fun x hx => ?_
      rcases holders_along R.sent_firstAcks hn hp hx with ⟨hown, rfl⟩ | hmem
      · rw [if_pos hown]
        exact mem_append_left _ mem_cons_self
      · exact mem_append_right _ (mem_firstAcks.mp hmem).2
    have hcount := hsub.length_le
    rw [length_append, hlen] at hcount
    unfold Majority at hmaj
    split at hcount
    · next hown =>
      have heven := hfew.resolve_left (not_not.mpr hown)
      rw [length_singleton] at hcount
      omega
    · rw [length_nil] at hcount
      omega

theorem nodup_pars (R : Submission) : R.pars.Nodup :=
  pairwise_map.mpr (R.cmdsByPar.sorted.imp fun h => ne_of_lt h)

theorem exists_par_notMem (R : Submission) {l : List ℕ} (h : l.length < R.pars.length) :
    ∃ p ∈ R.pars, p ∉ l := by
  by_contra hno
  push Not at hno
  exact absurd (subperm_of_subset R.nodup_pars hno).length_le h.not_ge

theorem not_durable_of_not_safe (h : ¬ R.Safe) : ¬ R.Durable := by
  rw [Safe, not_or, not_and_or, not_and_or, not_or, not_le] at h
  obtain ⟨hown, hone⟩ := h
  have hpos : 0 < R.me.nReplicas := R.nReplicas_own ▸ length_pos_of_mem R.coord_mem
  rcases lt_or_ge R.me.nReplicas 3 with hlt | hmany
  · rcases lt_or_ge R.me.nReplicas 2 with hlt | htwo
    · -- one replica each: a site of one other partition acknowledges, a third one has nobody
      have hthree : 2 < R.pars.length := hone.resolve_left (by omega)
      obtain ⟨q, hq, hqown⟩ := R.exists_par_notMem (l := [R.me.parId]) (lt_of_succ_lt hthree)
      obtain ⟨p, hp, hpown⟩ := R.exists_par_notMem (l := [R.me.parId, q]) hthree
      rw [mem_singleton] at hqown
      rw [mem_cons, mem_singleton, not_or] at hpown
      obtain ⟨y, hy⟩ := exists_mem_of_length_pos (l := R.me.sitesOf q)
        ((R.replicas q hq).symm ▸ hpos)
      refine not_durable_of_one (e := (q, y)) hlt.le hq hy ?_ hp hpown.1 hpown.2
      rintro rfl
      exact hqown (R.apart q hq _ R.own _ hy R.coord_mem)
    · -- two replicas each: the coordinator's other one acknowledges
      have hp : ∃ p ∈ R.pars, p ≠ R.me.parId := by
        have hall := hown.resolve_right fun h => h.2 (by omega)
        push Not at hall
        exact hall
      obtain ⟨p, hp, hpown⟩ := hp
      have hlen := le_length_others R.own_mem
      obtain ⟨y, hy⟩ := exists_mem_of_length_pos (l := R.others R.me.parId) (by omega)
      obtain ⟨hne, hmem⟩ := (mem_others R.own_mem).mp hy
      exact not_durable_of_one (e := (R.me.parId, y)) (by omega) R.own_mem hmem hne hp hpown hpown
  · rcases hown with hall | ⟨hodd, -⟩
    · push Not at hall
      obtain ⟨p, hp, hpown⟩ := hall
      exact not_durable_of_many hmany hp (.inl hpown)
    · exact not_durable_of_many hmany R.own_mem (.inr (by omega))

end

/-- A transaction is durable when it becomes executable exactly if `Safe` says so. -/
theorem durable_iff (R : Submission) : R.Durable ↔ R.Safe :=
  ⟨fun h => by_contra fun hno => not_durable_of_not_safe hno h, durable_of_safe⟩

/-- A transaction with a piece for each of two partitions of three replicas; site 1 coordinates it. -/
def pair : Submission where
  site x := { threeSite with siteId := x, parId := x / 3 }
  coord := 1
  id := 7
  cmdsByPar := (pieceFor 0).set 1 [plainPiece]
  siteId := rfl
  own := by decide
  pieces := by decide
  replicas := by decide
  nodup := by decide
  apart := by decide
  coord_mem := by decide

/-- One other replica of either partition stores the transaction and acknowledges: it is executable,
    and one of the three replicas of partition 1 has it. -/
theorem pair_moved : ∃ n0 es n n', pair.Starts n0 ∧ run pair.netStep n0 es = some n ∧
    pair.netStep n (.ack 1 3) = some n' ∧ pair.phase n ≠ some .localCanExe ∧
      pair.phase n' = some .localCanExe ∧ ¬ pair.Majority n' 1 := by
  have h : ((step pair.me (newSched pair.me 0) (.handleIRT 7 pair.cmdsByPar [10])).bind fun s =>
      (run pair.netStep (update (fun x => newSched (pair.site x) 0) 1 s)
        [.event 0 (.prepareIRT 7 [plainPiece] ⟨10, 10, 1⟩), .ack 0 0,
          .event 3 (.prepareIRT 7 [plainPiece] ⟨10, 10, 1⟩)]).bind fun n =>
        (pair.netStep n (.ack 1 3)).map fun n' => decide (pair.phase n ≠ some .localCanExe ∧
          pair.phase n' = some .localCanExe ∧ ¬ pair.Majority n' 1)) = some true := by decide
  obtain ⟨s, hs, h⟩ := Option.bind_eq_some_iff.mp h
  obtain ⟨n, hn, h⟩ := Option.bind_eq_some_iff.mp h
  obtain ⟨n', hn', h⟩ := map_eq_some_iff.mp h
  exact ⟨_, _, n, n', ⟨_, [10], hs⟩, hn, hn', of_decide_eq_true h⟩

end Submission

end Fiss.Chronos
