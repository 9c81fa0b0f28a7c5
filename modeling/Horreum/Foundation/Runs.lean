/-
  Foundation/Runs.lean --- finite runs of a partial step function.

  A run stops being defined where a step is not.  `Guarded` says that every step meets a condition in
  the state it is taken in; `run_invariant` carries an invariant along, `run_total` shows that a run is
  defined and `run_defined_iff` says when it is.

  `answers` are the runs of a step that also answers, with rules for comparing them with a reference
  (`answers_simulates`, `expected_refines`) or with another machine (`answers_agree`,
  `answers_commutes`).
-/
import Mathlib.Data.List.Basic

set_option autoImplicit false

namespace Horreum.Foundation

/-! ## Results of computations

What holds of the result of a computation can be decided by computing it.  A statement that names
several results is brought into this form by `exists_and_left`. -/

section Results

variable {α β γ ε : Type}

instance decidableSome (o : Option α) (p : α → Prop) [DecidablePred p] :
    Decidable (∃ a, o = some a ∧ p a) :=
  match o with
  | none => isFalse fun ⟨_, h, _⟩ => nomatch h
  | some a => decidable_of_iff (p a)
      ⟨fun hp => ⟨a, rfl, hp⟩, fun ⟨_, h, hp⟩ => Option.some.inj h ▸ hp⟩

instance decidableSomePair (o : Option (α × β)) (p : α → β → Prop) [∀ a b, Decidable (p a b)] :
    Decidable (∃ a b, o = some (a, b) ∧ p a b) :=
  decidable_of_iff (∃ x, o = some x ∧ p x.1 x.2)
    ⟨fun ⟨x, h, hp⟩ => ⟨x.1, x.2, h, hp⟩, fun ⟨a, b, h, hp⟩ => ⟨(a, b), h, hp⟩⟩

instance decidableSomeTriple (o : Option (α × β × γ)) (p : α → β → γ → Prop)
    [∀ a b c, Decidable (p a b c)] : Decidable (∃ a b c, o = some (a, b, c) ∧ p a b c) :=
  decidable_of_iff (∃ x, o = some x ∧ p x.1 x.2.1 x.2.2)
    ⟨fun ⟨x, h, hp⟩ => ⟨x.1, x.2.1, x.2.2, h, hp⟩, fun ⟨a, b, c, h, hp⟩ => ⟨(a, b, c), h, hp⟩⟩

/-- The state after a given answer. -/
instance decidableAnswer [DecidableEq α] (o : Option (α × β)) (a : α) (p : β → Prop)
    [DecidablePred p] : Decidable (∃ b, o = some (a, b) ∧ p b) :=
  decidable_of_iff (∃ x, o = some x ∧ x.1 = a ∧ p x.2)
    ⟨fun ⟨x, h, ha, hp⟩ => ⟨x.2, by rw [h, ← ha], hp⟩, fun ⟨b, h, hp⟩ => ⟨(a, b), h, rfl, hp⟩⟩

instance decidableOk (x : Except ε α) (p : α → Prop) [DecidablePred p] :
    Decidable (∃ a, x = .ok a ∧ p a) :=
  match x with
  | .error _ => isFalse fun ⟨_, h, _⟩ => nomatch h
  | .ok a => decidable_of_iff (p a)
      ⟨fun hp => ⟨a, rfl, hp⟩, fun ⟨_, h, hp⟩ => Except.ok.inj h ▸ hp⟩

instance decidableSomeOk (o : Option (Except ε α)) (p : α → Prop) [DecidablePred p] :
    Decidable (∃ a, o = some (.ok a) ∧ p a) :=
  decidable_of_iff (∃ x, o = some x ∧ ∃ a, x = .ok a ∧ p a)
    ⟨fun ⟨x, h, a, ha, hp⟩ => ⟨a, by rw [h, ha], hp⟩, fun ⟨a, h, hp⟩ => ⟨.ok a, h, a, rfl, hp⟩⟩

instance decidableSomeOkPair (o : Option (Except ε (α × β))) (p : α → β → Prop)
    [∀ a b, Decidable (p a b)] : Decidable (∃ a b, o = some (.ok (a, b)) ∧ p a b) :=
  decidable_of_iff (∃ x, o = some (.ok x) ∧ p x.1 x.2)
    ⟨fun ⟨x, h, hp⟩ => ⟨x.1, x.2, h, hp⟩, fun ⟨a, b, h, hp⟩ => ⟨(a, b), h, hp⟩⟩

instance decidableState [DecidableEq α] (x : α × β) (a : α) (p : β → Prop) [DecidablePred p] :
    Decidable (∃ b, x = (a, b) ∧ p b) :=
  decidable_of_iff (x.1 = a ∧ p x.2)
    ⟨fun ⟨ha, hp⟩ => ⟨x.2, by rw [← ha], hp⟩, fun ⟨b, h, hp⟩ => by rw [h]; exact ⟨rfl, hp⟩⟩

instance decidableSomeOkState (o : Option (Except ε α × β)) (p : α → β → Prop)
    [∀ a b, Decidable (p a b)] : Decidable (∃ a b, o = some (.ok a, b) ∧ p a b) :=
  decidable_of_iff (∃ x, o = some x ∧ ∃ a, x.1 = .ok a ∧ p a x.2)
    ⟨fun ⟨x, h, a, ha, hp⟩ => ⟨a, x.2, by rw [h, ← ha], hp⟩,
      fun ⟨a, b, h, hp⟩ => ⟨(.ok a, b), h, a, rfl, hp⟩⟩

instance decidableReturns (o : Option α) : Decidable (∃ a, o = some a) :=
  decidable_of_iff _ Option.isSome_iff_exists

instance decidableAnswered [DecidableEq α] (o : Option (α × β)) (a : α) :
    Decidable (∃ b, o = some (a, b)) :=
  decidable_of_iff (∃ b, o = some (a, b) ∧ True) (by simp only [and_true])

end Results

theorem bind_eq_ok {ε α β : Type} {x : Except ε α} {f : α → Except ε β} {b : β}
    (h : x.bind f = .ok b) : ∃ a, x = .ok a ∧ f a = .ok b := by
  cases x with
  | error e => cases h
  | ok a => exact ⟨a, rfl, h⟩

theorem map_eq_ok {ε α β : Type} {x : Except ε α} {f : α → β} {b : β} (h : x.map f = .ok b) :
    ∃ a, x = .ok a ∧ f a = b := by
  cases x with
  | error e => cases h
  | ok a => exact ⟨a, rfl, Except.ok.inj h⟩

theorem mapError_eq_ok {ε ε' α : Type} {x : Except ε α} {g : ε → ε'} {a : α}
    (h : x.mapError g = .ok a) : x = .ok a := by
  cases x with
  | error e => cases h
  | ok b => exact congrArg Except.ok (Except.ok.inj h)

section Runs

variable {σ α : Type} {step : σ → α → Option σ}

/-- The state after a list of steps, if all of them are defined. -/
def run (step : σ → α → Option σ) : σ → List α → Option σ
  | s, [] => some s
  | s, a :: as => (step s a).bind fun s => run step s as

theorem run_append (step : σ → α → Option σ) (as bs : List α) (s : σ) :
    run step s (as ++ bs) = (run step s as).bind fun s => run step s bs := by
  induction as generalizing s with
  | nil => rfl
  | cons a as ih =>
    simp only [List.cons_append, run, Option.bind_assoc]
    exact congrArg _ (funext ih)

/-- Every step of the run meets `ok` in the state it is taken in. -/
def Guarded (step : σ → α → Option σ) (ok : σ → α → Prop) : σ → List α → Prop
  | _, [] => True
  | s, a :: as => ok s a ∧ ∀ s', step s a = some s' → Guarded step ok s' as

theorem Guarded.and {ok ok' : σ → α → Prop} :
    ∀ {as : List α} {s : σ}, Guarded step ok s as → Guarded step ok' s as →
      Guarded step (fun s a => ok s a ∧ ok' s a) s as
  | [], _, _, _ => trivial
  | _ :: _, _, h, h' => ⟨⟨h.1, h'.1⟩, fun s' hs' => (h.2 s' hs').and (h'.2 s' hs')⟩

theorem guarded_of_forall {ok : σ → α → Prop} :
    ∀ {as : List α} {s : σ}, (∀ s, ∀ a ∈ as, ok s a) → Guarded step ok s as
  | [], _, _ => trivial
  | a :: _, s, h => ⟨h s a List.mem_cons_self, fun _ _ =>
    guarded_of_forall fun s a ha => h s a (List.mem_cons_of_mem _ ha)⟩

theorem Guarded.append {ok : σ → α → Prop} {bs : List α} :
    ∀ {as : List α} {s : σ}, Guarded step ok s as →
      (∀ s', run step s as = some s' → Guarded step ok s' bs) → Guarded step ok s (as ++ bs)
  | [], s, _, h' => h' s rfl
  | _ :: _, _, h, h' => ⟨h.1, fun mid hmid => (h.2 mid hmid).append fun s' hs' =>
    h' s' (by rw [run, hmid]; exact hs')⟩

instance decidableGuarded (step : σ → α → Option σ) (ok : σ → α → Prop)
    [∀ s a, Decidable (ok s a)] : ∀ s as, Decidable (Guarded step ok s as)
  | _, [] => isTrue trivial
  | s, a :: as =>
    match h : step s a with
    | none => decidable_of_iff (ok s a) ⟨fun hok => ⟨hok, by simp [h]⟩, And.left⟩
    | some s' =>
      have := decidableGuarded step ok s' as
      decidable_of_iff (ok s a ∧ Guarded step ok s' as)
        ⟨fun ⟨hok, hrest⟩ => ⟨hok, by simpa [h] using hrest⟩,
          fun ⟨hok, hrest⟩ => ⟨hok, hrest s' h⟩⟩

variable {step : σ → α → Option σ} {ok : σ → α → Prop} (inv : σ → Prop)

/-- What every guarded step keeps holds at the end of a guarded run. -/
theorem run_invariant (hstep : ∀ s a s', inv s → ok s a → step s a = some s' → inv s') :
    ∀ (as : List α) (s s' : σ), inv s → Guarded step ok s as → run step s as = some s' → inv s'
  | [], s, s', hinv, _, h => by
    cases h
    exact hinv
  | a :: as, s, s', hinv, hguard, h => by
    obtain ⟨mid, hmid, hrest⟩ := Option.bind_eq_some_iff.mp h
    exact run_invariant hstep as mid s' (hstep s a mid hinv hguard.1 hmid)
      (hguard.2 mid hmid) hrest

theorem run_keeps (hstep : ∀ s a s', inv s → step s a = some s' → inv s') (as : List α)
    (s s' : σ) (hinv : inv s) (hrun : run step s as = some s') : inv s' := by
  induction as generalizing s with
  | nil =>
    cases hrun
    exact hinv
  | cons a as ih =>
    obtain ⟨mid, hmid, hrest⟩ := Option.bind_eq_some_iff.mp hrun
    exact ih mid (hstep s a mid hinv hmid) hrest

/-- A run whose steps are each a step of another machine, or none, is a run of that machine. -/
theorem run_simulates {τ β : Type} {step' : τ → β → Option τ} (f : α → Option β)
    (rel : σ → τ → Prop) : ∀ (as : List α),
      (∀ a ∈ as, ∀ s s' t, rel s t → step s a = some s' →
        f a = none ∧ rel s' t ∨ ∃ b t', f a = some b ∧ step' t b = some t' ∧ rel s' t') →
      ∀ (s s' : σ) (t : τ), rel s t → run step s as = some s' →
        ∃ t', run step' t (as.filterMap f) = some t' ∧ rel s' t'
  | [], _, s, s', t, hrel, hrun => by
    cases hrun
    exact ⟨t, rfl, hrel⟩
  | a :: as, hstep, s, s', t, hrel, hrun => by
    have hrest := run_simulates f rel as fun b hb => hstep b (List.mem_cons_of_mem a hb)
    obtain ⟨mid, hmid, hrun⟩ := Option.bind_eq_some_iff.mp hrun
    rcases hstep a List.mem_cons_self s mid t hrel hmid with ⟨hf, hrel'⟩ | ⟨b, t₁, hf, hb, hrel'⟩
    · rw [List.filterMap_cons_none hf]
      exact hrest mid s' t hrel' hrun
    · obtain ⟨t', hrun', hend⟩ := hrest mid s' t₁ hrel' hrun
      refine ⟨t', ?_, hend⟩
      rw [List.filterMap_cons_some hf, run, hb]
      exact hrun'

/-- A guard that follows from another wherever the invariant holds. -/
theorem guarded_imp {ok' : σ → α → Prop}
    (hstep : ∀ s a s', inv s → ok s a → step s a = some s' → inv s')
    (himp : ∀ s a, inv s → ok s a → ok' s a) :
    ∀ (as : List α) (s : σ), inv s → Guarded step ok s as → Guarded step ok' s as
  | [], _, _, _ => trivial
  | a :: as, s, hinv, hguard => ⟨himp s a hinv hguard.1, fun s' hs' =>
    guarded_imp hstep himp as s' (hstep s a s' hinv hguard.1 hs') (hguard.2 s' hs')⟩

/-- Where every guarded step is defined and keeps the invariant, so does every guarded run. -/
theorem run_total (hstep : ∀ s a, inv s → ok s a → ∃ s', step s a = some s' ∧ inv s')
    (as : List α) : ∀ s, inv s → Guarded step ok s as → ∃ s', run step s as = some s' ∧ inv s' := by
  induction as with
  | nil =>
    intro s hinv _
    exact ⟨s, rfl, hinv⟩
  | cons a as ih =>
    intro s hinv hguard
    obtain ⟨mid, hmid, hmidInv⟩ := hstep s a hinv hguard.1
    obtain ⟨s', hrest, hinv'⟩ := ih mid hmidInv (hguard.2 mid hmid)
    exact ⟨s', by rw [run, hmid]; exact hrest, hinv'⟩

/-- The same for a fold, with an invariant that may speak of what is left. -/
theorem foldlM_total (inv : List α → σ → Prop)
    (hstep : ∀ a as s, inv (a :: as) s → ∃ s', step s a = some s' ∧ inv as s') :
    ∀ (as : List α) (s : σ), inv as s → ∃ s', as.foldlM step s = some s' ∧ inv [] s'
  | [], s, hinv => ⟨s, rfl, hinv⟩
  | a :: as, s, hinv => by
    obtain ⟨mid, hmid, hmidInv⟩ := hstep a as s hinv
    obtain ⟨s', hrest, hinv'⟩ := foldlM_total inv hstep as mid hmidInv
    exact ⟨s', by rw [List.foldlM_cons, hmid]; exact hrest, hinv'⟩

/-- Where a step is defined exactly under the guard, a run is defined exactly if it is guarded. -/
theorem run_defined_iff (hkeep : ∀ s a s', inv s → step s a = some s' → inv s')
    (hiff : ∀ s a, inv s → ((∃ s', step s a = some s') ↔ ok s a)) (as : List α) :
    ∀ s, inv s → ((∃ t, run step s as = some t) ↔ Guarded step ok s as) := by
  induction as with
  | nil =>
    intro s _
    exact ⟨fun _ => trivial, fun _ => ⟨s, rfl⟩⟩
  | cons a as ih =>
    intro s hinv
    constructor
    · rintro ⟨t, hrun⟩
      obtain ⟨mid, hmid, hrest⟩ := Option.bind_eq_some_iff.mp hrun
      refine ⟨(hiff s a hinv).mp ⟨mid, hmid⟩, fun s' hs' => ?_⟩
      cases hmid.symm.trans hs'
      exact (ih mid (hkeep s a mid hinv hmid)).mp ⟨t, hrest⟩
    · rintro ⟨hok, hguard⟩
      obtain ⟨mid, hmid⟩ := (hiff s a hinv).mpr hok
      obtain ⟨t, hrest⟩ := (ih mid (hkeep s a mid hinv hmid)).mpr (hguard mid hmid)
      exact ⟨t, by rw [run, hmid]; exact hrest⟩

/-- A fold whose steps commute with a change of states and inputs commutes with it. -/
theorem foldlM_commutes {τ β : Type} (step : σ → α → Option σ) (step' : τ → β → Option τ)
    (f : σ → τ) (g : α → β) (hstep : ∀ s a, step' (f s) (g a) = (step s a).map f) :
    ∀ (as : List α) (s : σ), (as.map g).foldlM step' (f s) = (as.foldlM step s).map f
  | [], _ => rfl
  | a :: as, s => by
    rw [List.map_cons, List.foldlM_cons, List.foldlM_cons, hstep]
    cases step s a with
    | none => rfl
    | some mid => exact foldlM_commutes step step' f g hstep as mid

/-- Where a step outside the guard spoils the state it leads to, the states of a run are all good
exactly when the run is guarded. -/
theorem always_iff_guarded {good : σ → Prop} (hgood : ∀ s, inv s → good s)
    (hkeep : ∀ s a s', inv s → ok s a → step s a = some s' → inv s')
    (hspoil : ∀ s a s', inv s → ¬ ok s a → step s a = some s' → ¬ good s') :
    ∀ (as : List α) (s t : σ), inv s → run step s as = some t →
      ((∀ n s', run step s (as.take n) = some s' → good s') ↔ Guarded step ok s as) := by
  intro as
  induction as with
  | nil =>
    intro s t hinv _
    refine ⟨fun _ => trivial, fun _ n s' hrun => ?_⟩
    rw [List.take_nil] at hrun
    cases hrun
    exact hgood s hinv
  | cons a as ih =>
    intro s t hinv hrun
    obtain ⟨mid, hmid, hrest⟩ := Option.bind_eq_some_iff.mp hrun
    have htake : ∀ n, run step s ((a :: as).take (n + 1)) = run step mid (as.take n) := by
      intro n
      rw [List.take_succ_cons, run, hmid]
      rfl
    by_cases hok : ok s a
    · have hiff := ih mid t (hkeep s a mid hinv hok hmid) hrest
      constructor
      · intro hall
        refine ⟨hok, fun s' hs' => ?_⟩
        obtain rfl : mid = s' := Option.some.inj (hmid.symm.trans hs')
        exact hiff.mp fun n s' hn => hall (n + 1) s' ((htake n).trans hn)
      · intro hguard n s' hn
        cases n with
        | zero =>
          cases hn
          exact hgood s hinv
        | succ n => exact hiff.mpr (hguard.2 mid hmid) n s' ((htake n).symm.trans hn)
    · constructor
      · intro hall
        exact absurd (hall 1 mid ((htake 0).trans rfl)) (hspoil s a mid hinv hok hmid)
      · exact fun hguard => absurd hguard.1 hok

end Runs

section Answers

variable {σ τ α β : Type} {step : σ → α → Option (β × σ)} {rel : σ → τ → Prop}

/-- The answers of a run, in order, and the state it ends in. -/
def answers (step : σ → α → Option (β × σ)) : σ → List α → Option (List β × σ)
  | s, [] => some ([], s)
  | s, a :: as =>
    (step s a).bind fun (b, s) => (answers step s as).map fun (bs, s) => (b :: bs, s)

theorem run_of_answers {as : List α} {bs : List β} :
    ∀ {s s' : σ}, answers step s as = some (bs, s') →
      run (fun s a => (step s a).map Prod.snd) s as = some s' := by
  induction as generalizing bs with
  | nil =>
    intro s s' h
    cases h
    rfl
  | cons a as ih =>
    intro s s' h
    obtain ⟨⟨b, mid⟩, hmid, h⟩ := Option.bind_eq_some_iff.mp h
    obtain ⟨⟨bs', t⟩, hrest, h⟩ := Option.map_eq_some_iff.mp h
    cases h
    rw [run, hmid]
    exact ih hrest

theorem answers_concat {as : List α} {bs : List β} {a : α} {b : β} :
    ∀ {s s' s'' : σ}, answers step s as = some (bs, s') → step s' a = some (b, s'') →
      answers step s (as ++ [a]) = some (bs ++ [b], s'') := by
  induction as generalizing bs with
  | nil =>
    intro s s' s'' h hstep
    cases h
    rw [List.nil_append, answers, hstep]
    rfl
  | cons a' as ih =>
    intro s s' s'' h hstep
    obtain ⟨⟨b', mid⟩, hmid, h⟩ := Option.bind_eq_some_iff.mp h
    obtain ⟨⟨bs', t⟩, hrest, h⟩ := Option.map_eq_some_iff.mp h
    cases h
    rw [List.cons_append, answers, hmid]
    simp only [Option.bind_some, ih hrest hstep, Option.map_some, List.cons_append]

/-- The answers of a reference. -/
def expected (spec : τ → α → β × τ) : τ → List α → List β × τ
  | t, [] => ([], t)
  | t, a :: as =>
    let (bs, t') := expected spec (spec t a).2 as
    ((spec t a).1 :: bs, t')

theorem expected_concat (spec : τ → α → β × τ) (as : List α) (a : α) (t : τ) :
    (expected spec t (as ++ [a])).2 = (spec (expected spec t as).2 a).2 := by
  induction as generalizing t with
  | nil => rfl
  | cons b as ih => exact ih _

theorem answers_expected_concat (spec : τ → α → β × τ) (as : List α) (a : α) (t : τ) :
    (expected spec t (as ++ [a])).1 = (expected spec t as).1 ++ [(spec (expected spec t as).2 a).1] := by
  induction as generalizing t with
  | nil => rfl
  | cons b as ih => exact congrArg ((spec t b).1 :: ·) (ih _)

/-- Where each step gives the answer of the reference and keeps the relation, a run gives the
answers of the reference. -/
theorem answers_simulates {spec : τ → α → β × τ}
    (hstep : ∀ s t a, rel s t → ∃ s', step s a = some ((spec t a).1, s') ∧ rel s' (spec t a).2)
    (as : List α) : ∀ s t, rel s t →
      ∃ s', answers step s as = some ((expected spec t as).1, s') ∧ rel s' (expected spec t as).2 := by
  induction as with
  | nil =>
    intro s t hrel
    exact ⟨s, rfl, hrel⟩
  | cons a as ih =>
    intro s t hrel
    obtain ⟨mid, hmid, hrelMid⟩ := hstep s t a hrel
    obtain ⟨s', hrest, hrel'⟩ := ih mid _ hrelMid
    refine ⟨s', ?_, hrel'⟩
    simp only [answers, hmid, Option.bind_some, hrest, Option.map_some]
    rfl

/-- A machine that is never undefined gives the answers of the reference as long as the reference
stays within what the machine can represent. -/
theorem expected_refines {impl : σ → α → β × σ} {spec : τ → α → β × τ} {fine : τ → Prop}
    {ok : α → Prop}
    (hstep : ∀ s t a, rel s t → fine t → fine (spec t a).2 → ok a →
      (impl s a).1 = (spec t a).1 ∧ rel (impl s a).2 (spec t a).2) (as : List α) :
    ∀ s t, rel s t → (∀ a ∈ as, ok a) → (∀ n, fine (expected spec t (as.take n)).2) →
      (expected impl s as).1 = (expected spec t as).1 ∧
        rel (expected impl s as).2 (expected spec t as).2 := by
  induction as with
  | nil =>
    intro s t hrel _ _
    exact ⟨rfl, hrel⟩
  | cons a as ih =>
    intro s t hrel hok hfine
    obtain ⟨hanswer, hrel'⟩ := hstep s t a hrel (hfine 0) (hfine 1) (hok a List.mem_cons_self)
    obtain ⟨hrest, hend⟩ := ih _ _ hrel' (fun b hb => hok b (List.mem_cons_of_mem a hb))
      fun n => hfine (n + 1)
    refine ⟨?_, hend⟩
    simp only [expected, hanswer, hrest]

/-- Two machines whose steps answer alike and keep a relation answer alike over whole runs. -/
theorem answers_agree {step' : τ → α → Option (β × τ)} (hstep : ∀ s t a, rel s t →
      ∃ b s' t', step s a = some (b, s') ∧ step' t a = some (b, t') ∧ rel s' t')
    (as : List α) : ∀ s t, rel s t →
      ∃ bs s' t', answers step s as = some (bs, s') ∧ answers step' t as = some (bs, t') ∧
        rel s' t' := by
  induction as with
  | nil =>
    intro s t hrel
    exact ⟨[], s, t, rfl, rfl, hrel⟩
  | cons a as ih =>
    intro s t hrel
    obtain ⟨b, mid, mid', hmid, hmid', hrelMid⟩ := hstep s t a hrel
    obtain ⟨bs, s', t', hrest, hrest', hrel'⟩ := ih mid mid' hrelMid
    refine ⟨b :: bs, s', t', ?_, ?_, hrel'⟩
    · simp only [answers, hmid, Option.bind_some, hrest, Option.map_some]
    · simp only [answers, hmid', Option.bind_some, hrest', Option.map_some]

/-- A map of the states that commutes with each step commutes with whole runs. -/
theorem answers_commutes {step' : τ → α → Option (β × τ)} (f : σ → τ)
    (hstep : ∀ s a, step' (f s) a = (step s a).map fun out => (out.1, f out.2)) (as : List α) :
    ∀ s, answers step' (f s) as = (answers step s as).map fun out => (out.1, f out.2) := by
  induction as with
  | nil => exact fun s => rfl
  | cons a as ih =>
    intro s
    rw [answers, answers, hstep]
    cases hs : step s a with
    | none => rfl
    | some out =>
      simp only [Option.map_some, Option.bind_some, ih, Option.map_map]
      rfl

end Answers

end Horreum.Foundation
