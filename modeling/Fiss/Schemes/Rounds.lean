import Fiss.Schemes.Ledger
import Fiss.Schemes.Runs

/-! Requests of attempts that follow one another, each of which goes through phases in a fixed order.
    The phases of all attempts are numbered through, and an answer comes with the number of the phase
    its request was sent in: one that comes with the current number answers a request of the current
    phase of the current attempt. -/

namespace Fiss
open List Ledger

/-- Of a request: its attempt, the place of its phase in the attempt, the number of the phase. -/
structure Stamp where
  attempt : ℕ
  rank : ℕ
  phase : ℕ
  deriving DecidableEq

/-- An earlier phase, of the same attempt or of an earlier one. -/
def Stamp.Before (now s : Stamp) : Prop :=
  s.phase < now.phase ∧ (s.attempt < now.attempt ∨ s.attempt = now.attempt ∧ s.rank < now.rank)

theorem Stamp.Before.ne {now s : Stamp} (h : now.Before s) : s ≠ now := fun heq =>
  h.1.ne (congrArg Stamp.phase heq)

/-- Every request is of an earlier phase or of this one, and no two are the same. -/
structure Ordered {ρ α : Type} (stamp : ρ → Stamp) (now : Stamp) (l : Ledger ρ α) : Prop where
  nodup : l.all.Nodup
  order : ∀ r ∈ l.all, now.Before (stamp r) ∨ stamp r = now

namespace Ordered

variable {ρ α : Type} {stamp : ρ → Stamp} {now now' : Stamp} {l : Ledger ρ α} {r : ρ} {rs : List ρ}

section
variable (h : Ordered stamp now l)
include h

theorem answer [DecidableEq ρ] (hr : r ∈ l.outstanding) (a : α) :
    Ordered stamp now (l.answer r a) :=
  have hperm := all_answer hr a
  ⟨hperm.nodup_iff.mpr h.nodup, fun x hx => h.order x (hperm.mem_iff.mp hx)⟩

theorem eq_of_phase (hr : r ∈ l.all) (hphase : (stamp r).phase = now.phase) : stamp r = now :=
  (h.order r hr).resolve_left fun hbefore => hbefore.1.ne hphase

theorem eq_of_rank (hr : r ∈ l.all)
    (hattempt : (stamp r).attempt = now.attempt) (hrank : (stamp r).rank = now.rank) :
    stamp r = now := by
  refine (h.order r hr).resolve_left fun hbefore => ?_
  have hlater := hbefore.2
  omega

theorem later (hnow : now'.Before now) : ∀ r ∈ l.all, now'.Before (stamp r) := by
  intro r hr
  have hlater := hnow.2
  rcases h.order r hr with hbefore | heq
  · refine ⟨hbefore.1.trans hnow.1, ?_⟩
    have hearlier := hbefore.2
    omega
  · rw [heq]
    exact hnow

end

theorem of_before (hnodup : l.all.Nodup) (h : ∀ r ∈ l.all, now.Before (stamp r)) :
    Ordered stamp now l :=
  ⟨hnodup, fun r hr => .inl (h r hr)⟩

theorem send (h : Ordered stamp now l) (hnodup : rs.Nodup) (hnew : ∀ r ∈ rs, r ∉ l.all)
    (hstamp : ∀ r ∈ rs, stamp r = now) : Ordered stamp now (l.send rs) := by
  constructor <;> rw [all_send]
  · refine nodup_append.mpr ⟨h.nodup, hnodup, fun a ha b hb hab => ?_⟩
    exact hnew b hb (hab ▸ ha)
  · exact forall_mem_append.mpr ⟨h.order, fun r hr => .inr (hstamp r hr)⟩

end Ordered

section Counts

variable {ρ α : Type} {stamp : ρ → Stamp} {now : Stamp} {l : Ledger ρ α} {r : ρ} {rs : List ρ}

/-- How many requests of this phase are answered. -/
def heard (stamp : ρ → Stamp) (now : Stamp) (l : Ledger ρ α) : ℕ :=
  l.answered.countP fun e => stamp e.1 = now

/-- How many there are. -/
def asked (stamp : ρ → Stamp) (now : Stamp) (l : Ledger ρ α) : ℕ :=
  l.all.countP fun r => stamp r = now

theorem asked_send (h : ∀ r ∈ l.all, now.Before (stamp r)) (hstamp : ∀ r ∈ rs, stamp r = now) :
    asked stamp now (l.send rs) = rs.length := by
  have hold : (l.all.countP fun r => stamp r = now) = 0 :=
    countP_eq_zero.mpr fun r hr => by simpa using (h r hr).ne
  have hnew : (rs.countP fun r => stamp r = now) = rs.length :=
    countP_eq_length.mpr fun r hr => by simpa using hstamp r hr
  rw [asked, all_send, countP_append, hold, hnew, Nat.zero_add]

theorem heard_of_before (h : ∀ r ∈ l.all, now.Before (stamp r)) : heard stamp now l = 0 := by
  refine countP_eq_zero.mpr fun e he => ?_
  have hbefore := h e.1 (mem_append_left _ (mem_map_of_mem he))
  simpa using hbefore.ne

theorem asked_answer [DecidableEq ρ] (hr : r ∈ l.outstanding) (a : α) :
    asked stamp now (l.answer r a) = asked stamp now l :=
  (all_answer hr a).countP_eq _

theorem heard_answer [DecidableEq ρ] (l : Ledger ρ α) (r : ρ) (a : α) :
    heard stamp now (l.answer r a) = heard stamp now l + if stamp r = now then 1 else 0 := by
  rw [heard, answer, countP_append, countP_singleton, heard]
  simp

theorem exists_answer_of_heard (h : asked stamp now l ≤ heard stamp now l) (hr : r ∈ l.all)
    (hs : stamp r = now) : ∃ a, (r, a) ∈ l.answered :=
  exists_answer h hr (by simpa using hs)

end Counts

/-! ### Polls -/

section Polls

variable {ρ α γ : Type} {mk : γ → ℕ → ρ} {size : γ → ℕ} {gs : List γ} {g : γ} {own : γ → ρ → Bool}
  {l : Ledger ρ α} {r : ρ}

/-- A request to each member of each group. -/
def poll (mk : γ → ℕ → ρ) (size : γ → ℕ) (gs : List γ) : List ρ :=
  gs.flatMap fun g => (range (size g)).map (mk g)

theorem mem_poll : r ∈ poll mk size gs ↔ ∃ g ∈ gs, ∃ k < size g, mk g k = r := by
  simp only [poll, mem_flatMap, mem_map, mem_range]

theorem nodup_poll (hmk : ∀ {g k g' k'}, mk g k = mk g' k' → g = g' ∧ k = k') (hgs : gs.Nodup) :
    (poll mk size gs).Nodup := by
  refine nodup_flatMap.mpr ⟨fun g _ => nodup_range.map fun i j hij => (hmk hij).2,
    hgs.imp fun hne r hr hr' => ?_⟩
  obtain ⟨i, -, rfl⟩ := mem_map.mp hr
  obtain ⟨j, -, hj⟩ := mem_map.mp hr'
  exact hne (hmk hj).1.symm

theorem countP_poll (hown : ∀ {g g' k}, own g (mk g' k) = true ↔ g' = g) (hgs : gs.Nodup)
    (hg : g ∈ gs) : (poll mk size gs).countP (own g) = size g := by
  have hother : ∀ gs' : List γ, g ∉ gs' → (poll mk size gs').countP (own g) = 0 := by
    intro gs' hnot
    refine countP_eq_zero.mpr fun r hr hgroup => ?_
    obtain ⟨g', hg', k, -, rfl⟩ := mem_poll.mp hr
    exact hnot (hown.mp hgroup ▸ hg')
  have hsize : ((range (size g)).map (mk g)).countP (own g) = size g := by
    rw [countP_eq_length.mpr (forall_mem_map.mpr fun k _ => hown.mpr rfl), length_map, length_range]
  obtain ⟨before, after, rfl⟩ := append_of_mem hg
  obtain ⟨-, hafter, hbefore⟩ := nodup_append.mp hgs
  have hsplit : poll mk size (before ++ g :: after) =
      poll mk size before ++ ((range (size g)).map (mk g) ++ poll mk size after) := by
    rw [poll, flatMap_append, flatMap_cons]
    rfl
  rw [hsplit, countP_append, countP_append, hsize, hother after (nodup_cons.mp hafter).1,
    hother before fun hmem => hbefore g hmem g mem_cons_self rfl, Nat.zero_add, Nat.add_zero]

/-- Each member of the groups has a request of the poll, and no one has another. -/
structure Polled (own : γ → ρ → Bool) (mk : γ → ℕ → ρ) (size : γ → ℕ) (gs : List γ)
    (l : Ledger ρ α) : Prop where
  total : ∀ g ∈ gs, l.all.countP (own g) = size g
  sent : ∀ g ∈ gs, ∀ k < size g, mk g k ∈ l.all

namespace Polled

theorem send (hown : ∀ {g g' k}, own g (mk g' k) = true ↔ g' = g) (hgs : gs.Nodup)
    (hold : ∀ r ∈ l.all, ∀ g, own g r ≠ true) : Polled own mk size gs (l.send (poll mk size gs)) where
  total g hg := by
    have hnone : l.all.countP (own g) = 0 := countP_eq_zero.mpr fun r hr => hold r hr g
    rw [all_send, countP_append, hnone, Nat.zero_add, countP_poll hown hgs hg]
  sent g hg k hk := mem_all_send.mpr (.inr (mem_poll.mpr ⟨g, hg, k, hk, rfl⟩))

section
variable (h : Polled own mk size gs l)
include h

theorem answer [DecidableEq ρ] (hr : r ∈ l.outstanding) (a : α) :
    Polled own mk size gs (l.answer r a) :=
  ⟨fun g hg => ((all_answer hr a).countP_eq _).trans (h.total g hg),
    fun g hg k hk => (mem_all_answer hr).mpr (h.sent g hg k hk)⟩

theorem answered_le (hg : g ∈ gs) : (l.answered.countP fun e => own g e.1) ≤ size g :=
  (countP_answered_le _).trans_eq (h.total g hg)

theorem exists_answer (hown : ∀ {g g' k}, own g (mk g' k) = true ↔ g' = g) (hg : g ∈ gs)
    (hall : size g ≤ l.answered.countP fun e => own g e.1) {k : ℕ} (hk : k < size g) :
    ∃ a, (mk g k, a) ∈ l.answered := by
  rw [← h.total g hg] at hall
  exact Ledger.exists_answer hall (h.sent g hg k hk) (hown.mpr rfl)

theorem exists_outstanding (hg : g ∈ gs) (hfew : (l.answered.countP fun e => own g e.1) < size g) :
    ∃ r ∈ l.outstanding, own g r = true := by
  rw [← h.total g hg, Ledger.all, countP_append, countP_map] at hfew
  exact countP_pos_iff.mp (Nat.pos_of_lt_add_right hfew)

end

end Polled

end Polls

/-! ### Decisions -/

/-- The decisions so far, one for an attempt, all of attempts before `next`. -/
structure Decided {δ : Type} (attempt : δ → ℕ) (Sound : δ → Prop) (log : List δ) (next : ℕ) :
    Prop where
  sound : ∀ d ∈ log, Sound d
  fresh : ∀ d ∈ log, attempt d < next
  once : (log.map attempt).Nodup

namespace Decided

variable {δ : Type} {attempt : δ → ℕ} {Sound : δ → Prop} {log : List δ} {next next' : ℕ} {d : δ}

theorem nil (next : ℕ) : Decided attempt Sound [] next :=
  ⟨forall_mem_nil _, forall_mem_nil _, nodup_nil⟩

theorem mono (h : Decided attempt Sound log next) (hle : next ≤ next') :
    Decided attempt Sound log next' :=
  ⟨h.sound, fun d hd => (h.fresh d hd).trans_le hle, h.once⟩

theorem concat (h : Decided attempt Sound log next) (hd : Sound d) (hlt : next < next')
    (hnext : attempt d = next) : Decided attempt Sound (log ++ [d]) next' where
  sound := forall_mem_concat h.sound hd
  fresh := forall_mem_concat (fun d' hd' => (h.fresh d' hd').trans hlt) (hnext ▸ hlt)
  once := nodup_map_concat h.once fun d' hd' => hnext ▸ (h.fresh d' hd').ne

end Decided

end Fiss
