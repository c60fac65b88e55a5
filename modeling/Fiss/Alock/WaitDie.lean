import Fiss.Alock.Queue

/-! The lock that lets a request wait only behind younger ones (`WaitDieALock`): a request that
    cannot be granted at once waits if its priority value is less than those of the conflicting
    requests `wait_die` looks at, and is refused otherwise. `wait_die` looks back to the last writer
    only; that this is enough is the order of the queue, `Ordered`. -/

namespace Fiss.Alock
open List Option Nat ALock

/-- What `wait_die` returns. -/
inductive WdStatus where
  | wait
  | die
  deriving DecidableEq

structure WaitDieALock extends ALock where
  nRInQueue : ℤ := 0
  nWInQueue : ℤ := 0

namespace WaitDieALock

/-- `wait_die` of a writer, over the queue from its back. -/
def waitDieWrite (priority : ℤ) : List Req → WdStatus
  | [] => .wait
  | q :: queue =>
    if q.priority ≤ priority then .die
    else if q.type = .wlock then .wait
    else waitDieWrite priority queue

/-- `wait_die` of a reader. -/
def waitDieRead (priority : ℤ) : List Req → Option WdStatus
  | [] => none
  | q :: queue =>
    if q.type = .wlock then some (if priority < q.priority then .wait else .die)
    else waitDieRead priority queue

def waitDie (type : LockType) (priority : ℤ) (s : WaitDieALock) : Option WdStatus :=
  match type with
  | .wlock => some (waitDieWrite priority s.requests.reverse)
  | .rlock => waitDieRead priority s.requests.reverse

/-- `n_r_in_queue_` or `n_w_in_queue_` changes. -/
def count (type : LockType) (n : ℤ) (s : WaitDieALock) : WaitDieALock :=
  match type with
  | .rlock => { s with nRInQueue := s.nRInQueue + n }
  | .wlock => { s with nWInQueue := s.nWInQueue + n }

/-- The new request is granted at the back of the queue. -/
def acquire (r : Req) (s : ALock) : Option ALock :=
  match r.type with
  | .rlock => s.readAcquire s.requests [r] []
  | .wlock => s.writeAcquire s.requests r []

def vlock (type : LockType) (priority : ℤ) (s : WaitDieALock) : Option WaitDieALock :=
  let r : Req := { id := s.nextId, priority, type }
  let b : ALock := { s.toALock with nextId := s.nextId + 1 }
  if s.status = .free ∨ s.status = .rlocked ∧ type = .rlock ∧ s.nWInQueue = 0 then
    (acquire r b).map fun b => { s with toALock := b }.count type 1
  else
    (s.waitDie type priority).map fun
      | .wait => { s with toALock := { b with requests := s.requests ++ [r] } }.count type 1
      | .die => { s with toALock := { b with no := s.no ++ [r.id] } }

def abort (id : ℕ) (s : WaitDieALock) : Option WaitDieALock :=
  (s.toALock.abort id).map fun b =>
    match s.requests.dropWhile (·.id ≠ id) with
    | [] => { s with toALock := b }
    | r :: _ => { s with toALock := b }.count r.type (-1)

/-- A call of the lock. -/
inductive Op where
  | vlock (type : LockType) (priority : ℤ)
  | abort (id : ℕ)

def step (s : WaitDieALock) : Op → Option WaitDieALock
  | .vlock type priority => s.vlock type priority
  | .abort id => s.abort id

/-! ### The order of the queue -/

/-- One of the two is a writer. -/
def Conflict (q r : Req) : Prop := q.type = .wlock ∨ r.type = .wlock

/-- Every request is older than the conflicting ones ahead of it. -/
def Ordered (requests : List Req) : Prop :=
  requests.Pairwise fun ahead r => Conflict ahead r → r.priority < ahead.priority

/-- The counter of the requests of a type. -/
def inQueue (type : LockType) (s : WaitDieALock) : ℤ :=
  match type with
  | .rlock => s.nRInQueue
  | .wlock => s.nWInQueue

structure Inv (s : WaitDieALock) : Prop where
  base : ALock.Inv s.toALock
  counted : ∀ type, s.inQueue type = s.requests.countP (·.type = type)
  ordered : Ordered s.requests

section Order

variable {requests requests' : List Req} {r : Req} {priority : ℤ}

theorem ordered_of_keys (hkeys : requests'.map Req.key = requests.map Req.key)
    (h : Ordered requests) : Ordered requests' := by
  have hmap : ∀ l : List Req, Ordered l ↔ (l.map Req.key).Pairwise fun a b =>
      (a.2.2 = .wlock ∨ b.2.2 = .wlock) → b.2.1 < a.2.1 := fun l => by
    rw [pairwise_map]
    rfl
  rw [hmap, hkeys, ← hmap]
  exact h

theorem ordered_concat (h : Ordered requests)
    (hr : ∀ q ∈ requests, Conflict q r → r.priority < q.priority) : Ordered (requests ++ [r]) :=
  pairwise_append.mpr ⟨h, pairwise_singleton .., fun q hq _ hr' =>
    mem_singleton.mp hr' ▸ hr q hq⟩

theorem older_of_waitDieWrite (h : Ordered requests.reverse)
    (hwait : waitDieWrite priority requests = .wait) : ∀ q ∈ requests, priority < q.priority := by
  induction requests with
  | nil => simp
  | cons q requests ih =>
    rw [reverse_cons, Ordered, pairwise_append] at h
    rw [waitDieWrite] at hwait
    split at hwait
    · cases hwait
    · next hlt =>
      intro x hx
      rcases mem_cons.mp hx with rfl | hx
      · exact not_le.mp hlt
      · split at hwait
        · next hw =>
          have hahead := h.2.2 x (mem_reverse.mpr hx) q (mem_singleton_self q) (.inr hw)
          exact (not_le.mp hlt).trans hahead
        · exact ih h.1 hwait x hx

theorem older_of_waitDieRead (h : Ordered requests.reverse)
    (hwait : waitDieRead priority requests = some .wait) :
    ∀ q ∈ requests, q.type = .wlock → priority < q.priority := by
  induction requests with
  | nil => simp
  | cons q requests ih =>
    rw [reverse_cons, Ordered, pairwise_append] at h
    rw [waitDieRead] at hwait
    intro x hx hxw
    split at hwait
    · next hw =>
      have hlt : priority < q.priority := by
        by_contra hnot
        rw [if_neg hnot] at hwait
        cases hwait
      rcases mem_cons.mp hx with rfl | hx
      · exact hlt
      · exact hlt.trans (h.2.2 x (mem_reverse.mpr hx) q (mem_singleton_self q) (.inr hw))
    · next hw =>
      rcases mem_cons.mp hx with rfl | hx
      · exact absurd hxw hw
      · exact ih h.1 hwait x hx hxw

theorem exists_waitDieRead (h : ∃ q ∈ requests, q.type = .wlock) (priority : ℤ) :
    ∃ wd, waitDieRead priority requests = some wd := by
  induction requests with
  | nil => simp at h
  | cons q requests ih =>
    rw [waitDieRead]
    split
    · exact ⟨_, rfl⟩
    · next hw =>
      obtain ⟨x, hx, hxw⟩ := h
      rcases mem_cons.mp hx with rfl | hx
      · exact absurd hxw hw
      · exact ih ⟨x, hx, hxw⟩

end Order

/-! ### Calls of the lock -/

section

variable {s s' : WaitDieALock} {r : Req} {type : LockType} {priority : ℤ}

@[simp] theorem toALock_count (type : LockType) (n : ℤ) (s : WaitDieALock) :
    (s.count type n).toALock = s.toALock := by
  cases type <;> rfl

theorem inQueue_count (type t : LockType) (n : ℤ) (s : WaitDieALock) :
    (s.count type n).inQueue t = s.inQueue t + if t = type then n else 0 := by
  cases type <;> cases t <;> simp [count, inQueue]

theorem countP_of_keys {l l' : List Req} (h : l.map Req.key = l'.map Req.key) (type : LockType) :
    l.countP (·.type = type) = l'.countP (·.type = type) := by
  have hmap : ∀ l : List Req, l.countP (·.type = type) =
      (l.map Req.key).countP fun k => k.2.2 = type := fun l => by
    rw [countP_map]
    rfl
  rw [hmap, h, ← hmap]

section
variable (h : Inv s)
include h

theorem Inv.add {b : ALock} (hb : ALock.Inv b)
    (hkeys : b.requests.map Req.key = (s.requests ++ [r]).map Req.key)
    (holder : ∀ q ∈ s.requests, Conflict q r → r.priority < q.priority) :
    Inv ({ s with toALock := b }.count r.type 1) := by
  refine ⟨?_, fun t => ?_, ?_⟩
  · rw [toALock_count]
    exact hb
  · rw [inQueue_count, toALock_count]
    show s.inQueue t + _ = ((b.requests.countP (·.type = t) : ℕ) : ℤ)
    rw [h.counted t, countP_of_keys hkeys t, countP_append, countP_singleton]
    simp only [decide_eq_true_eq, eq_comm (a := t), cast_add, cast_ite, cast_one,
      cast_zero]
  · rw [toALock_count]
    exact ordered_of_keys hkeys (ordered_concat h.ordered holder)

theorem Inv.exists_writer (hn : s.nWInQueue ≠ 0) : ∃ q ∈ s.requests, q.type = .wlock := by
  have hcount : s.nWInQueue = s.requests.countP (·.type = .wlock) := h.counted .wlock
  have hpos : 0 < s.requests.countP (·.type = .wlock) := by omega
  obtain ⟨q, hq, hw⟩ := countP_pos_iff.mp hpos
  exact ⟨q, hq, of_decide_eq_true hw⟩

/-- A request that is granted at once: the queue is empty, or readers hold the lock and no writer
    waits. -/
theorem Inv.acquire (hid : r.id = s.nextId) (hwaits : r.granted = false)
    (hgrant : s.status = .free ∨ s.status = .rlocked ∧ r.type = .rlock ∧ s.nWInQueue = 0) :
    ∃ b, acquire r { s.toALock with nextId := s.nextId + 1 } = some b ∧
      Inv ({ s with toALock := b }.count r.type 1) := by
  obtain ⟨held, waiting, hq⟩ := h.base.queue
  have hcalls := h.base.calls.push hid hwaits
  -- nothing waits, and what holds the lock are readers
  have hfront : waiting = [] ∧ (∀ q ∈ held, q.type = .rlock) ∧ (held ≠ [] → s.status = .rlocked) := by
    have hholds := hq.holds
    generalize hst : s.status = status at hholds hgrant ⊢
    cases hholds with
    | free => simp
    | write hw => rcases hgrant with hg | ⟨hg, -⟩ <;> cases hg
    | read hne hreaders hnext =>
      refine ⟨?_, hreaders, fun _ => rfl⟩
      rcases hgrant with hg | ⟨-, -, hn⟩
      · cases hg
      · cases hw : waiting with
        | nil => rfl
        | cons q rest =>
          subst hw
          have hcount : s.nWInQueue = s.requests.countP (·.type = .wlock) := h.counted .wlock
          have hpos : 0 < s.requests.countP (·.type = .wlock) :=
            countP_pos_iff.mpr ⟨q, by rw [hq.requests]; simp, decide_eq_true (hnext q rfl)⟩
          omega
  obtain ⟨rfl, hreaders, hstatus⟩ := hfront
  have hheld : s.requests = held := by rw [hq.requests, append_nil]
  rw [hheld] at hcalls
  have holder : ∀ q ∈ s.requests, r.type = .rlock → Conflict q r → r.priority < q.priority := by
    intro q hq' hr hconflict
    rcases hconflict with hw | hw
    · cases hw.symm.trans (hreaders q (hheld ▸ hq'))
    · cases hw.symm.trans hr
  cases hr : r.type with
  | rlock =>
    obtain ⟨b, hb, hinv, -, hkeys⟩ := acquireReaders_inv
      (s := { s.toALock with nextId := s.nextId + 1 }) held [r] hq.granted hreaders
      (fun q hq' => mem_singleton.mp hq' ▸ hwaits)
      (hq.nRlock.trans (congrArg _ (countP_readers hreaders))) hstatus
      (.inr ⟨r, [], rfl, hr⟩) hcalls
    refine ⟨b, ?_, ?_⟩
    · have hbatch : [r].takeWhile Req.isReader = [r] ∧ [r].dropWhile Req.isReader = [] := by
        simp [Req.isReader, hr]
      rw [acquireReaders, hbatch.1, hbatch.2] at hb
      rw [WaitDieALock.acquire, hr]
      exact hheld ▸ hb
    · rw [← hr]
      exact h.add hinv (hheld ▸ hkeys) fun q hq' => holder q hq' hr
  | wlock =>
    have hnil : held = [] := by
      by_contra hne
      rcases hgrant with hfree | ⟨-, hr', -⟩
      · cases hfree.symm.trans (hstatus hne)
      · cases hr.symm.trans hr'
    subst hnil
    obtain ⟨b, hb, hinv, hkeys⟩ := writeAcquire_inv
      (s := { s.toALock with nextId := s.nextId + 1 }) r [] hr
      (fun q hq' => mem_singleton.mp hq' ▸ hwaits) hq.nRlock hcalls
    refine ⟨b, ?_, ?_⟩
    · rw [WaitDieALock.acquire, hr]
      exact hheld ▸ hb
    · rw [← hr]
      refine h.add hinv (by rw [hheld]; exact hkeys) fun q hq' => ?_
      rw [hheld] at hq'
      cases hq'

theorem Inv.wait (hid : r.id = s.nextId) (hwaits : r.granted = false)
    (hgrant : ¬ (s.status = .free ∨ s.status = .rlocked ∧ r.type = .rlock ∧ s.nWInQueue = 0))
    (holder : ∀ q ∈ s.requests, Conflict q r → r.priority < q.priority) :
    Inv ({ s with toALock := { s.toALock with
      nextId := s.nextId + 1, requests := s.requests ++ [r] } }.count r.type 1) := by
  obtain ⟨held, waiting, hq⟩ := h.base.queue
  rw [not_or] at hgrant
  refine h.add ⟨⟨held, waiting ++ [r], ?_, hq.granted,
    forall_mem_concat hq.waits hwaits, ?_, hq.nRlock⟩,
    h.base.calls.push hid hwaits⟩ rfl holder
  · rw [← append_assoc, ← hq.requests]
  · show ALock.Holds s.status held (waiting ++ [r])
    have hholds := hq.holds
    generalize s.status = status at hholds hgrant ⊢
    cases hholds with
    | free => exact absurd rfl hgrant.1
    | write hw => exact .write hw
    | read hne hreaders hnext =>
      refine .read hne hreaders fun q hq' => ?_
      cases hw : waiting with
      | cons q' rest =>
        rw [hw] at hnext hq'
        exact hnext q hq'
      | nil =>
        rw [hw] at hq'
        obtain rfl : r = q := some.inj hq'
        cases hr : r.type with
        | wlock => rfl
        | rlock =>
          -- a reader waits for a writer of the queue
          obtain ⟨x, hx, hxw⟩ := h.exists_writer fun hn => hgrant.2 ⟨rfl, hr, hn⟩
          rw [hq.requests, hw, append_nil] at hx
          cases hxw.symm.trans (hreaders x hx)

theorem Inv.writer_ahead (hgrant : ¬ (s.status = .free ∨
    s.status = .rlocked ∧ LockType.rlock = .rlock ∧ s.nWInQueue = 0)) :
    ∃ q ∈ s.requests, q.type = .wlock := by
  obtain ⟨held, waiting, hq⟩ := h.base.queue
  have hholds := hq.holds
  rw [not_or] at hgrant
  generalize hst : s.status = status at hholds hgrant
  cases hholds with
  | free => exact absurd rfl hgrant.1
  | @write w _ hw => exact ⟨w, by rw [hq.requests]; simp, hw⟩
  | read => exact h.exists_writer fun hn => hgrant.2 ⟨rfl, rfl, hn⟩

theorem Inv.vlock (type : LockType) (priority : ℤ) :
    ∃ s', s.vlock type priority = some s' ∧ Inv s' := by
  rw [WaitDieALock.vlock]
  dsimp only
  split
  · next hgrant =>
    obtain ⟨b, hb, hinv⟩ := h.acquire (r := { id := s.nextId, priority, type }) rfl rfl hgrant
    exact ⟨_, by rw [hb, map_some], hinv⟩
  · next hgrant =>
    have hrev : Ordered s.requests.reverse.reverse := by
      rw [reverse_reverse]
      exact h.ordered
    have hwd : ∃ wd, s.waitDie type priority = some wd := by
      cases type with
      | wlock => exact ⟨_, rfl⟩
      | rlock =>
        obtain ⟨q, hq, hw⟩ := h.writer_ahead hgrant
        exact exists_waitDieRead ⟨q, mem_reverse.mpr hq, hw⟩ priority
    obtain ⟨wd, hwd⟩ := hwd
    rw [hwd, map_some]
    refine ⟨_, rfl, ?_⟩
    cases wd with
    | wait =>
      refine h.wait (r := { id := s.nextId, priority, type }) rfl rfl hgrant fun q hq hconflict => ?_
      cases type with
      | wlock =>
        exact older_of_waitDieWrite hrev (some.inj hwd) q (mem_reverse.mpr hq)
      | rlock =>
        refine older_of_waitDieRead hrev hwd q (mem_reverse.mpr hq) (hconflict.resolve_right ?_)
        exact fun hw => by cases hw
    | die =>
      have hfresh : s.nextId ∉ s.yes ∧ s.nextId ∉ s.no :=
        ⟨fun hin => (h.base.calls.yesFresh _ hin).false, fun hin => (h.base.calls.noFresh _ hin).false⟩
      refine ⟨⟨?_, ?_⟩, h.counted, h.ordered⟩
      · obtain ⟨held, waiting, hq⟩ := h.base.queue
        exact ⟨held, waiting, { hq with }⟩
      · exact h.base.calls.tick.reject (lt_succ_self _) hfresh.1 hfresh.2 fun q hq =>
          (h.base.calls.fresh q hq).ne

theorem Inv.abort (id : ℕ) : ∃ s', s.abort id = some s' ∧ Inv s' := by
  obtain ⟨b, hb, hinv, hkeys⟩ := abort_inv h.base id
  have hordered : Ordered b.requests :=
    ordered_of_keys hkeys (h.ordered.sublist eraseP_sublist)
  rw [WaitDieALock.abort, hb, map_some]
  refine ⟨_, rfl, ?_⟩
  rcases split_id s.requests id with ⟨hd, hw⟩ | ⟨r, after, hd, hr, hreq, hw⟩
  · rw [hd]
    rw [hw] at hkeys
    refine ⟨hinv, fun t => (h.counted t).trans ?_, hordered⟩
    exact congrArg Nat.cast (countP_of_keys hkeys t).symm
  · rw [hd]
    rw [hw] at hkeys
    refine ⟨by rwa [toALock_count], fun t => ?_, by rwa [toALock_count]⟩
    rw [inQueue_count, toALock_count]
    show s.inQueue t + _ = ((b.requests.countP (·.type = t) : ℕ) : ℤ)
    have hcount : s.requests.countP (·.type = t) =
        b.requests.countP (·.type = t) + if t = r.type then 1 else 0 := by
      generalize s.requests.takeWhile (·.id ≠ id) = before at hreq hkeys
      rw [countP_of_keys hkeys t, hreq, countP_append, countP_cons, countP_append,
        add_assoc]
      simp only [decide_eq_true_eq, eq_comm (a := t)]
    rw [h.counted t, hcount]
    split <;> simp

theorem inv_step (op : Op) : ∃ s', step s op = some s' ∧ Inv s' := by
  cases op with
  | vlock type priority => exact h.vlock type priority
  | abort id => exact h.abort id

end

theorem inv_init : Inv {} where
  base := ⟨⟨[], [], rfl, by simp, by simp, .free, rfl⟩, ⟨by simp, by simp, by simp, by simp, by simp,
    by simp, by simp, by simp, by simp⟩⟩
  counted type := by cases type <;> rfl
  ordered := List.Pairwise.nil

end

end WaitDieALock

end Fiss.Alock
