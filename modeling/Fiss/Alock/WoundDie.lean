import Fiss.Alock.Queue

/-! The lock that takes requests away from younger transactions (`WoundDieALock`): before a request
    is queued, `wound_die` goes through the queue from its back and wounds conflicting younger
    requests. One that waits is rejected; of one that holds the lock its wound callback decides, here
    a function of the request's id that is given with each call. -/

namespace Fiss.Alock.WoundDieALock
open List Option ALock

/-- What `wound_die` does at a request. -/
inductive Look where
  | stop
  | skip
  | wound

/-- The tests of `wound_die` for a new request of a type. -/
def look (type : LockType) (priority : ℤ) (q : Req) : Look :=
  match type with
  | .wlock => if priority ≤ q.priority then .wound else if q.type = .wlock then .stop else .skip
  | .rlock => if q.priority < priority then .stop else if q.type = .wlock then .wound else .skip

/-- `wound`: whether it succeeds. -/
def wound (wounds : ℕ → Bool) (q : Req) (s : ALock) : Option (Bool × ALock) :=
  if q.granted then
    if wounds q.id then
      match q.type with
      | .wlock => if s.status = .wlocked then some (true, { s with status := .free }) else none
      | .rlock =>
        if s.status = .rlocked then
          some (true, { s with
            nRlock := s.nRlock - 1
            status := if s.nRlock - 1 = 0 then .free else s.status })
        else none
    else some (false, s)
  else some (true, { s with no := s.no ++ [q.id] })

/-- `wound_die`, over the queue from its back: what is left of it, again from the back. -/
def woundDie (type : LockType) (priority : ℤ) (wounds : ℕ → Bool) :
    List Req → ALock → Option (List Req × ALock)
  | [], s => some ([], s)
  | q :: queue, s =>
    match look type priority q with
    | .stop => some (q :: queue, s)
    | .skip => (woundDie type priority wounds queue s).map fun p => (q :: p.1, p.2)
    | .wound => (wound wounds q s).bind fun r =>
        (woundDie type priority wounds queue r.2).map fun p => (if r.1 then p.1 else q :: p.1, p.2)

/-- The loop of `vlock` where the lock is held by readers: those behind them are granted. -/
def extendReaders (s : ALock) : Option ALock :=
  let held := s.requests.takeWhile (·.granted)
  let behind := s.requests.dropWhile (·.granted)
  let batch := behind.takeWhile fun q => q.isReader && !q.granted
  let rest := behind.dropWhile fun q => q.isReader && !q.granted
  if held.all Req.isReader && !rest.head?.any (·.granted) then s.readAcquire held batch rest else none

/-- The end of `vlock`, with the new request in the queue. -/
def acquire (s : ALock) : Option ALock :=
  match s.requests with
  | [] => none
  | front :: rest =>
    match s.status with
    | .free =>
      if front.type = .wlock then s.writeAcquire [] front rest else s.acquireReaders [] (front :: rest)
    | .rlocked => if front.isReader && front.granted then extendReaders s else none
    | .wlocked => if !front.isReader && front.granted then some s else none

def vlock (type : LockType) (priority : ℤ) (wounds : ℕ → Bool) (s : ALock) : Option ALock :=
  (woundDie type priority wounds s.requests.reverse { s with nextId := s.nextId + 1 }).bind fun p =>
    acquire { p.2 with requests := p.1.reverse ++ [{ id := s.nextId, priority, type }] }

/-- A call of the lock. -/
inductive Op where
  | vlock (type : LockType) (priority : ℤ) (wounds : ℕ → Bool)
  | abort (id : ℕ)

def step (s : ALock) : Op → Option ALock
  | .vlock type priority wounds => vlock type priority wounds s
  | .abort id => s.abort id

/-! ### While requests are wounded -/

/-- What holds the lock may be joined by more. -/
inductive Grip : Status → List Req → Prop
  | free : Grip .free []
  | write {w : Req} (hw : w.type = .wlock) : Grip .wlocked [w]
  | read {held : List Req} (hne : held ≠ []) (hreaders : ∀ q ∈ held, q.type = .rlock) :
      Grip .rlocked held

/-- The queue `l` while `wound_die` goes through it. -/
structure Loose (s : ALock) (l held waiting : List Req) : Prop where
  requests : l = held ++ waiting
  granted : ∀ q ∈ held, q.granted = true
  waits : ∀ q ∈ waiting, q.granted = false
  grip : Grip s.status held
  nRlock : s.nRlock = held.countP Req.isReader
  calls : ALock.Calls l s.nextId s.yes s.no

section Wound

variable {s s' : ALock} {l before after held waiting : List Req} {q : Req} {wounds : ℕ → Bool}

theorem loose_of_inv (h : ALock.Inv s) : ∃ held waiting, Loose s s.requests held waiting := by
  obtain ⟨held, waiting, hq⟩ := h.queue
  refine ⟨held, waiting, hq.requests, hq.granted, hq.waits, ?_, hq.nRlock, h.calls⟩
  have hholds := hq.holds
  generalize s.status = status at hholds
  cases hholds with
  | free => exact .free
  | write hw => exact .write hw
  | read hne hreaders => exact .read hne hreaders

section
variable (h : Loose s (before ++ q :: after) held waiting)
include h

theorem Loose.reject (hq : q.granted = false) :
    ∃ waiting', Loose { s with no := s.no ++ [q.id] } (before ++ after) held waiting' := by
  obtain ⟨w, rfl, rfl⟩ := split_waiting h.granted h.requests.symm hq
  exact ⟨w ++ after, append_assoc .., h.granted, fun x hx => h.waits x (mem_middle hx q),
    h.grip, h.nRlock, h.calls.remove hq⟩

/-- One that holds the lock is taken out. -/
theorem Loose.release (hq : q.granted = true)
    (hwound : wounds q.id = true) : ∃ s', wound wounds q s = some (true, s') ∧
      ∃ held', Loose s' (before ++ after) held' waiting := by
  obtain ⟨rest, rfl, rfl⟩ := split_held h.waits h.requests.symm hq
  have hcalls := h.calls.sublist ((sublist_cons_self q (rest ++ waiting)).append_left before)
  have hgranted : ∀ x ∈ before ++ rest, x.granted = true := fun x hx =>
    h.granted x (mem_middle hx q)
  have hmem : q ∈ before ++ q :: rest := mem_append_right _ mem_cons_self
  have hn : s.nRlock = (before ++ q :: rest).countP Req.isReader := h.nRlock
  rw [wound, if_pos hq, if_pos hwound]
  generalize hheld : before ++ q :: rest = held at *
  have hgrip := h.grip
  generalize hstatus : s.status = status at hgrip
  cases hgrip with
  | free => cases hmem
  | @write w hw =>
    obtain rfl : q = w := mem_singleton.mp hmem
    obtain ⟨rfl, rfl⟩ := eq_nil_of_singleton hheld.symm
    rw [hw]
    refine ⟨_, if_pos rfl, [], rfl, by simp, h.waits, .free, ?_, hcalls⟩
    simpa [isReader_false.mpr hw] using hn
  | read hne hreaders =>
    have hsub : ∀ x ∈ before ++ rest, x.type = .rlock := fun x hx =>
      hreaders x (hheld ▸ mem_middle hx q)
    have hcount : s.nRlock - 1 = ((before ++ rest).length : ℕ) := by
      rw [hn, countP_readers hreaders, ← hheld]
      simp
      omega
    rw [hreaders q hmem]
    refine ⟨_, if_pos rfl, before ++ rest, (append_assoc ..).symm, hgranted, h.waits, ?_, ?_, hcalls⟩
    · show Grip (if s.nRlock - 1 = 0 then .free else .rlocked) (before ++ rest)
      split
      · next hzero =>
        rw [length_eq_zero_iff.mp (by omega : (before ++ rest).length = 0)]
        exact .free
      · next hpos =>
        refine .read (fun hnil => hpos ?_) hsub
        rw [hcount, hnil]
        rfl
    · rw [countP_readers hsub]
      exact hcount

theorem Loose.wound (wounds : ℕ → Bool) : ∃ wounded s', wound wounds q s = some (wounded, s') ∧
      ∃ held' waiting', Loose s' (before ++ if wounded then after else q :: after) held' waiting' := by
  cases hq : q.granted with
  | false =>
    obtain ⟨waiting', h'⟩ := h.reject hq
    refine ⟨true, _, ?_, held, waiting', h'⟩
    rw [WoundDieALock.wound, hq, if_neg Bool.false_ne_true]
  | true =>
    cases hw : wounds q.id with
    | true =>
      obtain ⟨s', hs', held', h'⟩ := h.release hq hw
      exact ⟨true, s', hs', held', waiting, h'⟩
    | false =>
      refine ⟨false, s, ?_, held, waiting, h⟩
      rw [WoundDieALock.wound, hq, if_pos rfl, hw, if_neg Bool.false_ne_true]

end

theorem woundDie_loose (type : LockType) (priority : ℤ) (wounds : ℕ → Bool) (queue : List Req) :
    ∀ {s : ALock} {after held waiting : List Req}, Loose s (queue.reverse ++ after) held waiting →
      ∃ kept s', woundDie type priority wounds queue s = some (kept, s') ∧
        ∃ held' waiting', Loose s' (kept.reverse ++ after) held' waiting' := by
  induction queue with
  | nil => exact fun {s _ held waiting} h => ⟨[], s, rfl, held, waiting, h⟩
  | cons q queue ih =>
    intro s after held waiting h
    rw [woundDie]
    cases look type priority q with
    | stop => exact ⟨q :: queue, s, rfl, held, waiting, h⟩
    | skip =>
      rw [reverse_cons, append_assoc] at h
      obtain ⟨kept, s', hs', held', waiting', h'⟩ := ih h
      refine ⟨q :: kept, s', ?_, held', waiting', ?_⟩
      · simp only [hs', map_some]
      · rwa [reverse_cons, append_assoc]
    | wound =>
      rw [reverse_cons, append_assoc] at h
      obtain ⟨wounded, s1, hs1, held1, waiting1, h1⟩ := Loose.wound h wounds
      obtain ⟨kept, s', hs', held', waiting', h'⟩ := ih h1
      refine ⟨if wounded then kept else q :: kept, s', ?_, held', waiting', ?_⟩
      · simp only [hs1, bind_some, hs', map_some]
      · cases wounded with
        | true => exact h'
        | false =>
          rw [if_neg Bool.false_ne_true, reverse_cons, append_assoc]
          exact h'

end Wound

/-! ### Calls of the lock -/

section

variable {s : ALock} {held waiting : List Req}

theorem takeWhile_granted (hgranted : ∀ q ∈ held, q.granted = true)
    (hwaits : ∀ q ∈ waiting, q.granted = false) : (held ++ waiting).takeWhile (·.granted) = held ∧
      (held ++ waiting).dropWhile (·.granted) = waiting := by
  rw [takeWhile_append_of_pos hgranted, dropWhile_append_of_pos hgranted]
  cases waiting with
  | nil => simp
  | cons q waiting => simp [hwaits q mem_cons_self]

theorem takeWhile_readers (hwaits : ∀ q ∈ waiting, q.granted = false) :
    (waiting.takeWhile fun q => q.isReader && !q.granted) = waiting.takeWhile Req.isReader ∧
      (waiting.dropWhile fun q => q.isReader && !q.granted) = waiting.dropWhile Req.isReader := by
  induction waiting with
  | nil => simp
  | cons q waiting ih =>
    obtain ⟨htake, hdrop⟩ := ih fun x hx => hwaits x (mem_cons_of_mem q hx)
    have hq := hwaits q mem_cons_self
    simp only [takeWhile_cons, dropWhile_cons, hq, Bool.not_false, Bool.and_true, htake, hdrop,
      and_self]

theorem extendReaders_eq (hgranted : ∀ q ∈ held, q.granted = true)
    (hreaders : ∀ q ∈ held, q.type = .rlock) (hwaits : ∀ q ∈ waiting, q.granted = false)
    (hrequests : s.requests = held ++ waiting) :
    extendReaders s = s.acquireReaders held waiting := by
  obtain ⟨htake, hdrop⟩ := takeWhile_granted hgranted hwaits
  obtain ⟨hbatch, hrest⟩ := takeWhile_readers hwaits
  have hhead : (waiting.dropWhile Req.isReader).head?.any (·.granted) = false := by
    cases hd : waiting.dropWhile Req.isReader with
    | nil => rfl
    | cons q rest =>
      have hmem : q ∈ waiting := (dropWhile_sublist _).subset (hd ▸ mem_cons_self)
      simp [hwaits q hmem]
  have hall : held.all Req.isReader = true :=
    all_eq_true.mpr fun q hq => isReader_true.mpr (hreaders q hq)
  rw [extendReaders, hrequests, htake, hdrop, hbatch, hrest, hhead, hall]
  rfl

/-- The front of the queue is granted again as far as it goes. -/
theorem Loose.acquire (h : Loose s s.requests held waiting) (hne : s.requests ≠ []) :
    ∃ s', acquire s = some s' ∧ ALock.Inv s' := by
  have hrequests := h.requests
  have hcalls := h.calls
  have hgrip := h.grip
  have hn := h.nRlock
  obtain ⟨front, rest, hfront⟩ := exists_cons_of_ne_nil hne
  rw [WoundDieALock.acquire, hfront]
  generalize hstatus : s.status = status at hgrip
  cases hgrip with
  | free =>
    have hwaits : ∀ q ∈ front :: rest, q.granted = false := by
      rw [← hfront, hrequests, nil_append]
      exact h.waits
    rw [hfront] at hcalls
    dsimp only
    split
    · next hw =>
      obtain ⟨s', hs', hinv, -⟩ := writeAcquire_inv _ _ hw hwaits hn hcalls
      exact ⟨s', hs', hinv⟩
    · next hr =>
      have hreader : front.type = .rlock := by
        cases ht : front.type with
        | rlock => rfl
        | wlock => exact absurd ht hr
      obtain ⟨s', hs', hinv, -⟩ := acquireReaders_inv [] _ (by simp) (by simp) hwaits hn
        (fun hnil => absurd rfl hnil) (.inr ⟨front, rest, rfl, hreader⟩) hcalls
      exact ⟨s', hs', hinv⟩
  | @write w hw =>
    obtain ⟨rfl, -⟩ := cons.inj (hfront.symm.trans hrequests)
    have hheld : (!front.isReader && front.granted) = true := by
      rw [isReader_false.mpr hw, h.granted front mem_cons_self]
      rfl
    exact ⟨s, if_pos hheld, ⟨[front], waiting, hrequests, h.granted, h.waits, hstatus ▸ .write hw, hn⟩,
      hcalls⟩
  | read hheld hreaders =>
    obtain ⟨q, held', rfl⟩ := exists_cons_of_ne_nil hheld
    obtain ⟨rfl, -⟩ := cons.inj (hfront.symm.trans hrequests)
    have hfirst : (front.isReader && front.granted) = true := by
      rw [isReader_true.mpr (hreaders front mem_cons_self),
        h.granted front mem_cons_self]
      rfl
    dsimp only
    rw [if_pos hfirst, extendReaders_eq h.granted hreaders h.waits hrequests]
    obtain ⟨s', hs', hinv, -⟩ := acquireReaders_inv _ _ h.granted hreaders h.waits
      (hn.trans (congrArg _ (countP_readers hreaders))) (fun _ => hstatus) (.inl hheld)
      (hrequests ▸ hcalls)
    exact ⟨s', hs', hinv⟩

theorem inv_vlock (h : ALock.Inv s) (type : LockType) (priority : ℤ) (wounds : ℕ → Bool) :
    ∃ s', vlock type priority wounds s = some s' ∧ ALock.Inv s' := by
  obtain ⟨held, waiting, hl⟩ := loose_of_inv h
  -- the new request is behind all that `wound_die` looks at
  have hnew : Loose { s with nextId := s.nextId + 1 }
      (s.requests.reverse.reverse ++ [{ id := s.nextId, priority, type }]) held
      (waiting ++ [{ id := s.nextId, priority, type }]) := by
    rw [reverse_reverse]
    refine ⟨?_, hl.granted, forall_mem_concat hl.waits rfl, hl.grip,
      hl.nRlock, hl.calls.push rfl rfl⟩
    rw [hl.requests, append_assoc]
  obtain ⟨kept, s', hs', held', waiting', h'⟩ := woundDie_loose type priority wounds _ hnew
  have hacquire := Loose.acquire
    (s := { s' with requests := kept.reverse ++ [{ id := s.nextId, priority, type }] }) { h' with }
    (by simp)
  rw [vlock, hs', bind_some]
  exact hacquire

theorem inv_step (h : ALock.Inv s) (op : Op) : ∃ s', step s op = some s' ∧ ALock.Inv s' := by
  cases op with
  | vlock type priority wounds => exact inv_vlock h type priority wounds
  | abort id =>
    obtain ⟨s', hs', hinv, -⟩ := abort_inv h id
    exact ⟨s', hs', hinv⟩

end

end Fiss.Alock.WoundDieALock
