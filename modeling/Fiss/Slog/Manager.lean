import Fiss.Rcc.DTxn
import Fiss.Schemes.OrdMap
import Fiss.Schemes.Runs

/-! The log of a region manager. Transactions that touch several regions come with a global index, in
    any order; they wait in `global_log_` until the indices before theirs are there, and are then
    appended to `log_`, between the transactions of the region itself. The message that closes a gap
    drains the slots behind it, and hands its own list of touched partitions on with each.

    The replication of an entry and what follows from its acknowledgement are left out. -/

namespace Fiss.Slog
open Fiss.Rcc List Option

/-- The pieces of a transaction, by partition. -/
abbrev Cmds := OrdMap ℕ (List SimpleCommand)

/-- `logEntry`. For the record it keeps the global index it was appended for, if there was one. -/
structure LogEntry where
  cmds : Cmds
  coordSite : ℕ
  committed : Bool := false
  touchedParsAll : List ℕ
  globalIndex : Option ℕ := none
  deriving DecidableEq

structure Manager where
  log : List LogEntry := []
  globalLog : List (Option LogEntry) := []
  globalNextInsertIndex : ℕ := 0
  barrierGlobalIndices : OrdSet ℕ := ∅
  barrierLocalIndices : List ℕ := []
  deriving DecidableEq

/-- A message of `SlogSendOrderedCRT`. -/
structure Ordered where
  cmds : Cmds
  index : ℕ
  handlerSite : ℕ
  touchedAllPars : List ℕ
  barriers : List ℕ := []
  deriving DecidableEq

/-- The global index of a transaction without one: -1 as an unsigned number. -/
def noIndex : ℕ := 2 ^ 64 - 1

namespace Manager

variable (m : Manager)

/-- The slot of `global_log_` at an index; a slot beyond its end is empty. -/
def slot (i : ℕ) : Option LogEntry := (m.globalLog[i]?).join

def insertLocalLog (globalIndex : Option ℕ) (cmds : Cmds) (handlerSite : ℕ) (touched : List ℕ) :
    Manager :=
  { m with
    log := m.log ++ [⟨cmds, handlerSite, false, touched, globalIndex⟩]
    barrierLocalIndices := if globalIndex.getD noIndex ∈ m.barrierGlobalIndices then
      m.barrierLocalIndices ++ [m.log.length] else m.barrierLocalIndices }

/-- `SendRmIRT`: a transaction of this region touches the partitions it has pieces for. -/
def sendRmIRT (cmds : Cmds) (handlerSite : ℕ) : Manager :=
  m.insertLocalLog none cmds handlerSite cmds.keys

def commitSlot (i : ℕ) (m : Manager) : Manager :=
  { m with
    globalLog := m.globalLog.modify i (Option.map fun e => { e with committed := true })
    globalNextInsertIndex := m.globalNextInsertIndex + 1 }

/-- The loop body for the entry at `global_next_insert_index_`; one without commands is skipped. -/
def insertNext (touched : List ℕ) (e : LogEntry) : Manager :=
  commitSlot m.globalNextInsertIndex (if e.cmds.isEmpty then m
    else m.insertLocalLog (some m.globalNextInsertIndex) e.cmds e.coordSite touched)

/-- The loop over the slots from `global_next_insert_index_` on, up to the first empty one. -/
def drain (touched : List ℕ) : List (Option LogEntry) → Manager → Manager
  | some e :: slots, m => drain touched slots (m.insertNext touched e)
  | _, m => m

/-- The slots with the message in its place. -/
def fill (msg : Ordered) : Manager :=
  { m with
    globalLog := (m.globalLog ++ List.replicate (msg.index + 1 - m.globalLog.length) none).set
      msg.index (some ⟨msg.cmds, msg.handlerSite, false, msg.touchedAllPars, none⟩)
    barrierGlobalIndices := msg.barriers.foldl OrdSet.insert m.barrierGlobalIndices }

def slogSendOrderedCRT (msg : Ordered) : Option Manager :=
  -- `verify(global_log_[index] == nullptr)`
  if m.slot msg.index = none then some ((m.fill msg).drain msg.touchedAllPars
    ((m.fill msg).globalLog.drop m.globalNextInsertIndex))
  else none

end Manager

inductive Event where
  | orderedCRT (msg : Ordered)
  | rmIRT (cmds : Cmds) (handlerSite : ℕ)

/-- One step of a manager, with the ordered messages it has taken, by their index. -/
def step (st : Manager × Dict ℕ Ordered) : Event → Option (Manager × Dict ℕ Ordered)
  | .orderedCRT msg => (st.1.slogSendOrderedCRT msg).map fun m => (m, st.2.set msg.index msg)
  | .rmIRT cmds handlerSite => some (st.1.sendRmIRT cmds handlerSite, st.2)

/-! ### What a message appends -/

/-- The entries of the slots up to the first empty one. -/
def filled : List (Option LogEntry) → List LogEntry
  | some e :: slots => e :: filled slots
  | _ => []

/-- The entries appended for slots that begin at index `i`. -/
def appended (touched : List ℕ) : ℕ → List LogEntry → List LogEntry
  | _, [] => []
  | i, e :: es => (if e.cmds.isEmpty then [] else [⟨e.cmds, e.coordSite, false, touched, some i⟩]) ++
      appended touched (i + 1) es

/-- What was sent with an index. -/
def LogEntry.content (e : LogEntry) : Cmds × ℕ × List ℕ := (e.cmds, e.coordSite, e.touchedParsAll)

def Ordered.content (msg : Ordered) : Cmds × ℕ × List ℕ :=
  (msg.cmds, msg.handlerSite, msg.touchedAllPars)

section Drain

variable {m : Manager} {msg : Ordered} {touched : List ℕ} {e a : LogEntry} {j : ℕ}

theorem slot_commitSlot (i : ℕ) :
    ((m.commitSlot i).slot j).map LogEntry.content = (m.slot j).map LogEntry.content := by
  simp only [Manager.slot, Manager.commitSlot, getElem?_modify]
  cases m.globalLog[j]? with
  | none => rfl
  | some o =>
    simp only [Option.map_eq_map, map_some, Option.join_some]
    split <;> cases o <;> rfl

theorem insertNext_spec (m : Manager) (touched : List ℕ) (e : LogEntry) :
    (m.insertNext touched e).log = m.log ++ appended touched m.globalNextInsertIndex [e] ∧
    (m.insertNext touched e).globalNextInsertIndex = m.globalNextInsertIndex + 1 ∧
    ∀ j, ((m.insertNext touched e).slot j).map LogEntry.content =
      (m.slot j).map LogEntry.content := by
  rw [Manager.insertNext]
  split
  · next hempty =>
    exact ⟨by simp [appended, hempty, Manager.commitSlot], rfl, fun j => slot_commitSlot _⟩
  · next hempty =>
    exact ⟨by simp [appended, hempty, Manager.commitSlot, Manager.insertLocalLog], rfl,
      fun j => slot_commitSlot _⟩

theorem drain_spec (touched : List ℕ) : ∀ (slots : List (Option LogEntry)) (m : Manager),
    (m.drain touched slots).log = m.log ++ appended touched m.globalNextInsertIndex (filled slots) ∧
    (m.drain touched slots).globalNextInsertIndex =
      m.globalNextInsertIndex + (filled slots).length ∧
    ∀ j, ((m.drain touched slots).slot j).map LogEntry.content = (m.slot j).map LogEntry.content
  | [], m => ⟨(append_nil _).symm, rfl, fun _ => rfl⟩
  | none :: slots, m => ⟨(append_nil _).symm, rfl, fun _ => rfl⟩
  | some e :: slots, m => by
    obtain ⟨hlog, hnext, hslots⟩ := insertNext_spec m touched e
    obtain ⟨hlog', hnext', hslots'⟩ := drain_spec touched slots (m.insertNext touched e)
    refine ⟨?_, ?_, fun j => (hslots' j).trans (hslots j)⟩
    · rw [Manager.drain, hlog', hlog, hnext]
      simp [appended, filled]
    · rw [Manager.drain, hnext', hnext, filled, length_cons]
      omega

theorem mem_appended : ∀ {es : List LogEntry} {i : ℕ}, a ∈ appended touched i es ↔
    ∃ n e, es[n]? = some e ∧ e.cmds.isEmpty = false ∧
      a = ⟨e.cmds, e.coordSite, false, touched, some (i + n)⟩
  | [], i => by simp [appended]
  | e :: es, i => by
    rw [appended, mem_append, mem_appended]
    constructor
    · rintro (h | ⟨n, e', he', hne, rfl⟩)
      · split at h
        · exact absurd h not_mem_nil
        · next hne =>
          exact ⟨0, e, rfl, eq_false_of_ne_true hne, by rw [mem_singleton.mp h]; rfl⟩
      · exact ⟨n + 1, e', he', hne, by rw [Nat.add_assoc, Nat.add_comm 1 n]⟩
    · rintro ⟨n, e', he', hne, rfl⟩
      cases n with
      | zero =>
        obtain rfl : e = e' := some.inj he'
        rw [if_neg (ne_true_of_eq_false hne)]
        exact .inl (mem_singleton.mpr rfl)
      | succ n => exact .inr ⟨n, e', he', hne, by rw [Nat.add_assoc, Nat.add_comm 1 n]⟩

theorem getElem_filled : ∀ (slots : List (Option LogEntry)) (n : ℕ), (filled slots)[n]? = some e ↔
    (slots[n]?).join = some e ∧ ∀ k < n, ((slots[k]?).join).isSome
  | [], n => by simp [filled]
  | none :: slots, 0 => by simp [filled]
  | none :: slots, n + 1 => by
    simp only [filled, getElem?_nil, reduceCtorEq, false_iff]
    exact fun h => by cases h.2 0 n.succ_pos
  | some e' :: slots, 0 => by simp [filled]
  | some e' :: slots, n + 1 => by
    rw [filled, getElem?_cons_succ, getElem?_cons_succ, getElem_filled slots n]
    refine and_congr_right fun _ => ⟨fun h k hk => ?_, fun h k hk => h (k + 1) (by omega)⟩
    cases k with
    | zero => rfl
    | succ k => exact h k (by omega)

theorem getElem_filled_length : ∀ slots : List (Option LogEntry),
    (slots[(filled slots).length]?).join = none
  | [] => rfl
  | none :: _ => rfl
  | some _ :: slots => getElem_filled_length slots

theorem slot_fill (m : Manager) (msg : Ordered) (j : ℕ) : (m.fill msg).slot j =
    if j = msg.index then some ⟨msg.cmds, msg.handlerSite, false, msg.touchedAllPars, none⟩
    else m.slot j := by
  rw [Manager.slot, Manager.slot, Manager.fill, getElem?_set]
  rcases eq_or_ne msg.index j with rfl | hj
  · rw [if_pos rfl, if_pos rfl, if_pos (by simp; omega)]
    rfl
  · rw [if_neg hj, if_neg hj.symm, getElem?_append]
    split
    · rfl
    · next hlen =>
      rw [getElem?_eq_none (not_lt.mp hlen), getElem?_replicate]
      split <;> rfl

theorem isSome_slot_fill : ((m.fill msg).slot j).isSome ↔ j = msg.index ∨ (m.slot j).isSome := by
  rw [slot_fill]
  split
  · next hj => exact iff_of_true rfl (.inl hj)
  · next hj => exact (or_iff_right hj).symm

/-- The message lets the slots up to `j` be drained: none of them but its own is empty. -/
def Drained (m : Manager) (msg : Ordered) (j : ℕ) : Prop :=
  m.globalNextInsertIndex ≤ j ∧
    ∀ k, m.globalNextInsertIndex ≤ k → k ≤ j → k = msg.index ∨ (m.slot k).isSome

theorem slogSendOrderedCRT_spec {m' : Manager} (h : m.slogSendOrderedCRT msg = some m') :
    m.slot msg.index = none ∧
    (∀ j, (m'.slot j).map LogEntry.content = ((m.fill msg).slot j).map LogEntry.content) ∧
    m'.slot m'.globalNextInsertIndex = none ∧
    ∀ a, a ∈ m'.log ↔ a ∈ m.log ∨ ∃ j e, Drained m msg j ∧ (m.fill msg).slot j = some e ∧
      e.cmds.isEmpty = false ∧ a = ⟨e.cmds, e.coordSite, false, msg.touchedAllPars, some j⟩ := by
  obtain ⟨hnone, hm'⟩ := ite_none_right_eq_some.mp h
  obtain rfl := some.inj hm'
  obtain ⟨hlog, hnext, hslots⟩ := drain_spec msg.touchedAllPars
    ((m.fill msg).globalLog.drop m.globalNextInsertIndex) (m.fill msg)
  have hdrop : ∀ n, (((m.fill msg).globalLog.drop m.globalNextInsertIndex)[n]?).join =
      (m.fill msg).slot (m.globalNextInsertIndex + n) := fun n => by
    rw [getElem?_drop, Manager.slot]
  refine ⟨hnone, hslots, ?_, fun a => ?_⟩
  · have hlast := getElem_filled_length ((m.fill msg).globalLog.drop m.globalNextInsertIndex)
    rw [hdrop] at hlast
    rw [hnext, ← map_eq_none_iff, hslots, map_eq_none_iff]
    exact hlast
  · rw [hlog, mem_append, mem_appended]
    refine or_congr_right ⟨?_, ?_⟩
    · rintro ⟨n, e, he, hne, rfl⟩
      obtain ⟨he, hall⟩ := (getElem_filled _ n).mp he
      rw [hdrop] at he
      refine ⟨m.globalNextInsertIndex + n, e, ⟨by omega, fun k hk hkn => ?_⟩, he, hne, rfl⟩
      obtain ⟨i, rfl⟩ := Nat.exists_eq_add_of_le hk
      rcases (Nat.le_of_add_le_add_left hkn).eq_or_lt with rfl | hi
      · exact isSome_slot_fill.mp (he ▸ rfl)
      · exact isSome_slot_fill.mp (hdrop i ▸ hall i hi)
    · rintro ⟨j, e, ⟨hj, hall⟩, he, hne, rfl⟩
      obtain ⟨n, rfl⟩ := Nat.exists_eq_add_of_le hj
      refine ⟨n, e, (getElem_filled _ n).mpr ⟨(hdrop n).trans he, fun k hk => ?_⟩, hne, rfl⟩
      rw [hdrop]
      exact isSome_slot_fill.mpr (hall _ (by omega) (by omega))

end Drain

/-! ### The log over a run -/

/-- Every entry of the log that has a global index carries what was sent with that index. -/
def OwnContent (st : Manager × Dict ℕ Ordered) : Prop :=
  ∀ e ∈ st.1.log, ∀ i, e.globalIndex = some i →
    ∃ msg, st.2.find i = some msg ∧ e.content = msg.content

/-- The slots hold what was sent, and the manager waits at an empty slot. -/
structure Slots (st : Manager × Dict ℕ Ordered) : Prop where
  sent : ∀ i, (st.1.slot i).map LogEntry.content = (st.2.find i).map Ordered.content
  gap : st.1.slot st.1.globalNextInsertIndex = none

/-- Every transaction a message drains touches the partitions that the message's own touches. -/
def SameTouched (st : Manager × Dict ℕ Ordered) : Event → Prop
  | .orderedCRT msg => ∀ j e, Drained st.1 msg j → st.1.slot j = some e →
      e.cmds.isEmpty = false → e.touchedParsAll = msg.touchedAllPars
  | .rmIRT _ _ => True

section Run

variable {st st' : Manager × Dict ℕ Ordered} {ev : Event}

theorem sent_fill (hst : Slots st) (msg : Ordered) (j : ℕ) :
    ((st.1.fill msg).slot j).map LogEntry.content =
      ((st.2.set msg.index msg).find j).map Ordered.content := by
  rw [slot_fill, Dict.find_set]
  split
  · rfl
  · exact hst.sent j

theorem step_slots (hst : Slots st) (h : step st ev = some st') : Slots st' := by
  cases ev with
  | orderedCRT msg =>
    obtain ⟨m', hm', rfl⟩ := map_eq_some_iff.mp h
    obtain ⟨-, hslots, hgap, -⟩ := slogSendOrderedCRT_spec hm'
    exact ⟨fun j => (hslots j).trans (sent_fill hst msg j), hgap⟩
  | rmIRT cmds handlerSite =>
    obtain rfl := some.inj h
    exact ⟨hst.sent, hst.gap⟩

theorem find_kept {msg : Ordered} {m' : Manager} (hst : Slots st)
    (h : st.1.slogSendOrderedCRT msg = some m') {i : ℕ} {msg' : Ordered}
    (hi : st.2.find i = some msg') : (st.2.set msg.index msg).find i = some msg' := by
  rw [Dict.find_set, if_neg, hi]
  rintro rfl
  have hsent := hst.sent msg.index
  rw [(slogSendOrderedCRT_spec h).1, hi] at hsent
  cases hsent

theorem step_ownContent (hst : Slots st) (hown : OwnContent st) (hC : SameTouched st ev)
    (h : step st ev = some st') : OwnContent st' := by
  cases ev with
  | orderedCRT msg =>
    obtain ⟨m', hm', rfl⟩ := map_eq_some_iff.mp h
    intro a ha i hi
    rcases ((slogSendOrderedCRT_spec hm').2.2.2 a).mp ha with ha | ⟨j, e, hj, he, hne, rfl⟩
    · obtain ⟨msg', hmsg', hcontent⟩ := hown a ha i hi
      exact ⟨msg', find_kept hst hm' hmsg', hcontent⟩
    · obtain rfl := some.inj hi
      obtain ⟨msg', hmsg', hcontent⟩ := map_eq_some_iff.mp
        ((sent_fill hst msg j).symm.trans (congrArg _ he))
      refine ⟨msg', hmsg', ?_⟩
      -- the entry drained carries the message's list, which is the one of its slot
      have htouched : e.touchedParsAll = msg.touchedAllPars := by
        rw [slot_fill] at he
        split at he
        · rw [← some.inj he]
        · exact hC j e hj he hne
      rw [hcontent, LogEntry.content, LogEntry.content, htouched]
  | rmIRT cmds handlerSite =>
    obtain rfl := some.inj h
    exact forall_mem_concat hown fun i hi => by cases hi

theorem sameTouched_of_own (hst : Slots st) (h : step st ev = some st') (hown : OwnContent st') :
    SameTouched st ev := by
  cases ev with
  | orderedCRT msg =>
    obtain ⟨m', hm', rfl⟩ := map_eq_some_iff.mp h
    intro j e hj he hne
    have hfill : (st.1.fill msg).slot j = some e := by
      rw [slot_fill, if_neg, he]
      rintro rfl
      cases (slogSendOrderedCRT_spec hm').1.symm.trans he
    obtain ⟨msg', hmsg', hcontent⟩ := hown _
      (((slogSendOrderedCRT_spec hm').2.2.2 _).mpr (.inr ⟨j, e, hj, hfill, hne, rfl⟩)) j rfl
    have hsent := sent_fill hst msg j
    rw [hfill, hmsg', map_some, map_some, some_inj, ← hcontent] at hsent
    exact congrArg (fun c => c.2.2) hsent
  | rmIRT cmds handlerSite => trivial

end Run

/-- Over any messages of a manager that begins empty, in any order: every entry of the log carries
    what was sent with its index exactly if each message drains only slots whose transactions touch
    the partitions its own touches. -/
theorem own_content_iff (evs : List Event) :
    Throughout step OwnContent ({}, {}) evs ↔ Along step SameTouched ({}, {}) evs := by
  have hslots : Slots ({}, {}) := ⟨fun _ => rfl, rfl⟩
  constructor
  · exact along_of_throughout (I := Slots) (fun _ _ _ hst h => step_slots hst h)
      (fun _ _ _ hst h hown => sameTouched_of_own hst h hown) hslots
  · intro hC
    have hall : Throughout step (fun st => Slots st ∧ OwnContent st) ({}, {}) evs :=
      throughout_of_inv (fun _ _ _ hst hC h => ⟨step_slots hst.1 h,
        step_ownContent hst.1 hst.2 hC h⟩) ⟨hslots, forall_mem_nil _⟩ hC
    exact throughout_mono (fun _ h => h.2) hall

/-- One piece, for partition 0. -/
def onePiece : Cmds := ⟨[(0, [{ innId := 1, type := 1 }])], pairwise_singleton _ _⟩

/-- A transaction of index 1 that touches partitions 0 and 1 arrives before the one of index 0,
    which touches 0 and 2, and is logged as touching 0 and 2. -/
theorem own_content_swapped : ¬ Throughout step OwnContent ({}, {})
    [.orderedCRT ⟨onePiece, 1, 5, [0, 1], []⟩, .orderedCRT ⟨onePiece, 0, 6, [0, 2], []⟩] := by
  intro h
  have hown := (h.2 _ rfl).2 _ rfl
  obtain ⟨msg, hmsg, hcontent⟩ := hown ⟨onePiece, 5, false, [0, 2], some 1⟩ (by decide) 1 rfl
  obtain rfl := some.inj hmsg
  exact absurd (congrArg (fun c => c.2.2) hcontent) (by decide)

end Fiss.Slog
