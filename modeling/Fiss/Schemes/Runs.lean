import Mathlib

/-! Runs of a machine whose step may fail to return. A run that fails stops there, so a property of
    a run speaks of the states it passed through. `Along C` asks a condition of every step taken,
    stated on the state before it; `Throughout P` asks a property of every state. `throughout_of_inv`
    is the induction every safety argument of this development goes through. -/

namespace Fiss
open Option List

variable {σ ε : Type} (step : σ → ε → Option σ)

/-- The state after a list of events, when every step returned. -/
def run : σ → List ε → Option σ
  | s, [] => some s
  | s, e :: es => (step s e).bind fun s' => run s' es

/-- Every step taken from `s` on the events starts in a state where `C` holds of its event. -/
def Along (C : σ → ε → Prop) : σ → List ε → Prop
  | _, [] => True
  | s, e :: es => ∀ s', step s e = some s' → C s e ∧ Along C s' es

/-- Every state passed from `s` on the events, `s` and the last one included, has `P`. -/
def Throughout (P : σ → Prop) : σ → List ε → Prop
  | s, [] => P s
  | s, e :: es => P s ∧ ∀ s', step s e = some s' → Throughout P s' es

/-- Every event is one that `C` allows where it comes, as long as the steps return. -/
def Allowed (C : σ → ε → Prop) : σ → List ε → Prop
  | _, [] => True
  | s, e :: es => C s e ∧ ∀ s', step s e = some s' → Allowed C s' es

variable {step}

instance decidableAlong {C : σ → ε → Prop} [∀ s e, Decidable (C s e)] :
    ∀ (s : σ) (es : List ε), Decidable (Along step C s es)
  | _, [] => isTrue trivial
  | s, e :: es =>
    match h : step s e with
    | none => isTrue fun _ hs => nomatch h.symm.trans hs
    | some s' =>
      have : Decidable (Along step C s' es) := decidableAlong s' es
      decidable_of_iff (C s e ∧ Along step C s' es)
        ⟨fun hC _ ht => some.inj (h.symm.trans ht) ▸ hC, fun hC => hC s' h⟩

instance decidableAllowed {C : σ → ε → Prop} [∀ s e, Decidable (C s e)] :
    ∀ (s : σ) (es : List ε), Decidable (Allowed step C s es)
  | _, [] => isTrue trivial
  | s, e :: es =>
    match h : step s e with
    | none => decidable_of_iff (C s e)
        ⟨fun hC => ⟨hC, fun _ hs => by cases h.symm.trans hs⟩, And.left⟩
    | some s' =>
      have : Decidable (Allowed step C s' es) := decidableAllowed s' es
      decidable_of_iff (C s e ∧ Allowed step C s' es)
        ⟨fun hC => ⟨hC.1, fun _ ht => some.inj (h.symm.trans ht) ▸ hC.2⟩,
          fun hC => ⟨hC.1, hC.2 s' h⟩⟩

theorem run_cons {s s' : σ} {e : ε} {es : List ε} :
    run step s (e :: es) = some s' ↔ ∃ t, step s e = some t ∧ run step t es = some s' := by
  rw [run, bind_eq_some_iff]

theorem run_some (g : σ → ε → σ) (s : σ) : ∀ es : List ε,
    run (fun s e => some (g s e)) s es = some (es.foldl g s)
  | [] => rfl
  | e :: es => run_some g (g s e) es

theorem run_append (s : σ) (es fs : List ε) :
    run step s (es ++ fs) = (run step s es).bind fun t => run step t fs := by
  induction es generalizing s with
  | nil => rfl
  | cons e es ih =>
    simp only [cons_append, run]
    cases step s e with
    | none => rfl
    | some t => exact ih t

theorem run_concat {s s' : σ} {es : List ε} {e : ε} :
    run step s (es ++ [e]) = some s' ↔ ∃ t, run step s es = some t ∧ step t e = some s' := by
  rw [run_append, bind_eq_some_iff]
  simp [run]

theorem ok_of_toOption {α β : Type} {r : Except α β} {b : β} (h : r.toOption = some b) :
    r = .ok b := by
  cases r with
  | error a => cases h
  | ok b' => exact congrArg Except.ok (some.inj h)

theorem forall_mem_concat {α : Type} {p : α → Prop} {l : List α} {a : α} (h : ∀ b ∈ l, p b)
    (ha : p a) : ∀ b ∈ l ++ [a], p b :=
  forall_mem_append.mpr ⟨h, forall_mem_singleton.mpr ha⟩

theorem nodup_map_concat {α β : Type} {f : α → β} {l : List α} {a : α} (h : (l.map f).Nodup)
    (ha : ∀ b ∈ l, f b ≠ f a) : ((l ++ [a]).map f).Nodup := by
  rw [map_append]
  refine nodup_append.mpr ⟨h, nodup_singleton (f a), fun y hy z hz => ?_⟩
  obtain ⟨b, hb, rfl⟩ := mem_map.mp hy
  rw [mem_singleton.mp hz]
  exact ha b hb

theorem throughout_head {P : σ → Prop} {s : σ} : ∀ {es : List ε}, Throughout step P s es → P s
  | [], h => h
  | _ :: _, h => h.1

theorem throughout_last {P : σ → Prop} {s s' : σ} : ∀ {es : List ε}, Throughout step P s es →
    run step s es = some s' → P s'
  | [], h, hr => some.inj hr ▸ h
  | _ :: _, h, hr => by
    obtain ⟨t, ht, hr⟩ := run_cons.mp hr
    exact throughout_last (h.2 t ht) hr

theorem throughout_mono {P Q : σ → Prop} (hPQ : ∀ s, P s → Q s) {s : σ} :
    ∀ {es : List ε}, Throughout step P s es → Throughout step Q s es
  | [], h => hPQ _ h
  | _ :: _, h => ⟨hPQ _ h.1, fun t ht => throughout_mono hPQ (h.2 t ht)⟩

theorem throughout_of_inv {Inv : σ → Prop} {C : σ → ε → Prop}
    (hstep : ∀ s e s', Inv s → C s e → step s e = some s' → Inv s') {s : σ} (hs : Inv s) :
    ∀ {es : List ε}, Along step C s es → Throughout step Inv s es
  | [], _ => hs
  | e :: _, hC => ⟨hs, fun t ht =>
      throughout_of_inv hstep (hstep s e t hs (hC t ht).1 ht) (hC t ht).2⟩

theorem along_mono {C C' : σ → ε → Prop} (hC : ∀ s e, C s e → C' s e) {s : σ} :
    ∀ {es : List ε}, Along step C s es → Along step C' s es
  | [], _ => trivial
  | _ :: _, h => fun t ht => ⟨hC _ _ (h t ht).1, along_mono hC (h t ht).2⟩

theorem along_of_inv {Inv : σ → Prop} {C C' : σ → ε → Prop}
    (hstep : ∀ s e s', Inv s → C s e → step s e = some s' → Inv s')
    (hC : ∀ s e s', Inv s → C s e → step s e = some s' → C' s e) {s : σ} (hs : Inv s) :
    ∀ {es : List ε}, Along step C s es → Along step C' s es
  | [], _ => trivial
  | e :: _, h => fun t ht => ⟨hC s e t hs (h t ht).1 ht,
      along_of_inv hstep hC (hstep s e t hs (h t ht).1 ht) (h t ht).2⟩

theorem along_of_mem {C : ε → Prop} : ∀ {es : List ε} (s : σ), (∀ e ∈ es, C e) →
    Along step (fun _ e => C e) s es
  | [], _, _ => trivial
  | e :: _, _, h => fun t _ =>
    ⟨h e mem_cons_self, along_of_mem t fun e he => h e (mem_cons_of_mem _ he)⟩

theorem along_true (s : σ) (es : List ε) : Along step (fun _ _ => True) s es :=
  along_of_mem s fun _ _ => trivial

theorem run_inv_mem {P : σ → Prop} {es : List ε} {s s' : σ}
    (hstep : ∀ s e s', e ∈ es → P s → step s e = some s' → P s') (hs : P s)
    (hr : run step s es = some s') : P s' :=
  throughout_last (throughout_of_inv (C := fun _ e => e ∈ es)
    (fun s e s' hi he h => hstep s e s' he hi h) hs (along_of_mem s fun _ he => he)) hr

theorem run_inv {P : σ → Prop} (hstep : ∀ s e s', P s → step s e = some s' → P s')
    {s s' : σ} {es : List ε} (hs : P s) (hr : run step s es = some s') : P s' :=
  run_inv_mem (fun s e s' _ => hstep s e s') hs hr

theorem run_of_allowed {Inv : σ → Prop} {C : σ → ε → Prop}
    (hstep : ∀ s e, Inv s → C s e → ∃ s', step s e = some s' ∧ Inv s') :
    ∀ {es : List ε} {s : σ}, Inv s → Allowed step C s es → ∃ s', run step s es = some s' ∧ Inv s'
  | [], s, hs, _ => ⟨s, rfl, hs⟩
  | e :: _, s, hs, hC => by
    obtain ⟨t, ht, hinv⟩ := hstep s e hs hC.1
    obtain ⟨s', hs', hinv'⟩ := run_of_allowed hstep hinv (hC.2 t ht)
    exact ⟨s', run_cons.mpr ⟨t, ht, hs'⟩, hinv'⟩

theorem exists_run {Inv : σ → Prop} (hstep : ∀ s e, Inv s → ∃ s', step s e = some s' ∧ Inv s') :
    ∀ (es : List ε) {s : σ}, Inv s → ∃ s', run step s es = some s' ∧ Inv s'
  | [], s, hs => ⟨s, rfl, hs⟩
  | e :: es, s, hs => by
    obtain ⟨t, ht, hinv⟩ := hstep s e hs
    obtain ⟨s', hs', hinv'⟩ := exists_run hstep es hinv
    exact ⟨s', run_cons.mpr ⟨t, ht, hs'⟩, hinv'⟩

theorem run_history {I : List ε → σ → Prop} {C : σ → ε → Prop}
    (hstep : ∀ es s e s', I es s → C s e → step s e = some s' → I (es ++ [e]) s') {s' : σ} :
    ∀ {es pre : List ε} {s : σ}, I pre s → Along step C s es → run step s es = some s' →
      I (pre ++ es) s'
  | [], pre, _, hs, _, hr => by
    rw [append_nil, ← some.inj hr]
    exact hs
  | e :: es, pre, s, hs, hC, hr => by
    obtain ⟨t, ht, hr⟩ := run_cons.mp hr
    obtain ⟨hCe, hC⟩ := hC t ht
    rw [append_cons]
    exact run_history hstep (hstep pre s e t hs hCe ht) hC hr

theorem run_sim {τ : Type} {step' : τ → ε → Option τ} {R : σ → τ → Prop}
    (hstep : ∀ s t e s', R s t → step s e = some s' → ∃ t', step' t e = some t' ∧ R s' t') :
    ∀ {es : List ε} {s s' : σ} {t : τ}, R s t → run step s es = some s' →
      ∃ t', run step' t es = some t' ∧ R s' t'
  | [], _, _, t, hR, hr => ⟨t, rfl, some.inj hr ▸ hR⟩
  | e :: _, s, _, t, hR, hr => by
    obtain ⟨s1, hs1, hr⟩ := run_cons.mp hr
    obtain ⟨t1, ht1, hR1⟩ := hstep s t e s1 hR hs1
    obtain ⟨t', ht', hR'⟩ := run_sim hstep hR1 hr
    exact ⟨t', run_cons.mpr ⟨t1, ht1, ht'⟩, hR'⟩

theorem along_of_throughout {I P : σ → Prop} {C : σ → ε → Prop}
    (hinv : ∀ s e s', I s → step s e = some s' → I s')
    (hforce : ∀ s e s', I s → step s e = some s' → P s' → C s e) {s : σ} (hs : I s) :
    ∀ {es : List ε}, Throughout step P s es → Along step C s es
  | [], _ => trivial
  | e :: _, h => fun t ht => ⟨hforce s e t hs ht (throughout_head (h.2 t ht)),
      along_of_throughout hinv hforce (hinv s e t hs ht) (h.2 t ht)⟩

theorem run_back {P : σ → Prop} (hstep : ∀ {s e s'}, step s e = some s' → P s' → P s)
    {s s' : σ} {es : List ε} (hr : run step s es = some s') (hs' : P s') : P s := by
  by_contra hs
  exact run_inv (P := fun t => ¬ P t) (fun _ _ _ hno h ht => hno (hstep h ht)) hs hr hs'

theorem run_asks {α : Type} (step : σ → ε → Option σ) (asks : ε → List α) (Good : List α → Prop)
    (Inv : List α → σ → Prop) (Fine : σ → Prop) (hgood : ∀ {l s}, Inv l s → Good l)
    (hpre : ∀ {l l'}, Good (l ++ l') → Good l) (hgo : ∀ {l s e}, Inv l s → Good (l ++ asks e) →
      ∃ s', step s e = some s' ∧ Inv (l ++ asks e) s')
    (hno : ∀ {l s e s'}, Inv l s → step s e = some s' → Fine s' → Good (l ++ asks e))
    (hback : ∀ {s e s'}, step s e = some s' → Fine s' → Fine s) (es : List ε) {l : List α} {s : σ}
    (hs : Inv l s) :
    (Good (l ++ es.flatMap asks) → ∃ s', run step s es = some s' ∧ Inv (l ++ es.flatMap asks) s') ∧
      ∀ s', run step s es = some s' → Fine s' → Good (l ++ es.flatMap asks) := by
  induction es generalizing l s with
  | nil =>
    rw [flatMap_nil, append_nil]
    exact ⟨fun _ => ⟨s, rfl, hs⟩, fun _ _ _ => hgood hs⟩
  | cons e es ih =>
    rw [flatMap_cons, ← append_assoc]
    constructor
    · intro hall
      obtain ⟨t, ht, hinv⟩ := hgo hs (hpre hall)
      obtain ⟨s', hr, hinv'⟩ := (ih hinv).1 hall
      exact ⟨s', run_cons.mpr ⟨t, ht, hr⟩, hinv'⟩
    · intro s' hr hs'
      obtain ⟨t, ht, hr⟩ := run_cons.mp hr
      obtain ⟨t', ht', hinv⟩ := hgo hs (hno hs ht (run_back hback hr hs'))
      obtain rfl := some.inj (ht.symm.trans ht')
      exact (ih hinv).2 s' hr hs'

end Fiss
