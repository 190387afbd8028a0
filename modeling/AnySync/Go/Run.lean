import Mathlib.Data.List.Basic

/-!
# Fallible steps and their runs

Fallible Go code returns an error as its last result and its callers return early. Here it is
an `Except`; a loop whose body may fail is `List.foldlM`. This file has the rules the
verification of such code needs, for any error, state and input type.

The rules for runs go through `runTrace`, the states in which the steps are taken: what every step
preserves (`foldlM_invariant`), that a run ends (`foldlM_total`), and that one run simulates another
(`foldlM_simulation`).
-/

universe u

variable {ε σ α β : Type u}

/-- A sequence of two computations succeeds iff the first does and then the second does. -/
theorem Except.bind_eq_ok {x : Except ε α} {f : α → Except ε β} {b : β} :
    x >>= f = .ok b ↔ ∃ a, x = .ok a ∧ f a = .ok b := by
  cases x with
  | error e => simp [bind, Except.bind]
  | ok a => simp [bind, Except.bind]

/-- A sequence of two computations fails iff the first does or else the second does. -/
theorem Except.bind_eq_error {x : Except ε α} {f : α → Except ε β} {e : ε} :
    x >>= f = .error e ↔ x = .error e ∨ ∃ a, x = .ok a ∧ f a = .error e := by
  cases x with
  | error e' => simp [bind, Except.bind]
  | ok a => simp [bind, Except.bind]

@[simp]
theorem Except.ok_bind (a : α) (f : α → Except ε β) : (Except.ok a >>= f) = f a := rfl

@[simp]
theorem Except.error_bind (e : ε) (f : α → Except ε β) :
    (Except.error e >>= f) = Except.error e := rfl

/-- `if b { return e }`. -/
def failIf {ε : Type} (b : Bool) (e : ε) : Except ε Unit :=
  if b then .error e else .ok ()

@[simp]
theorem failIf_eq_ok {ε : Type} {b : Bool} {e : ε} {u : Unit} : failIf b e = .ok u ↔ b = false := by
  cases b <;> simp [failIf]

@[simp]
theorem failIf_eq_error {ε : Type} {b : Bool} {e e' : ε} :
    failIf b e = .error e' ↔ b = true ∧ e = e' := by
  cases b <;> simp [failIf]

theorem forM_eq_ok {ε α : Type} {f : α → Except ε Unit} {l : List α} {u : Unit} :
    l.forM f = .ok u ↔ ∀ a ∈ l, f a = .ok () := by
  induction l with
  | nil => simp [pure, Except.pure]
  | cons a l ih =>
    have hcons : (a :: l).forM f = (f a >>= fun _ => l.forM f) := rfl
    rw [hcons, Except.bind_eq_ok, List.forall_mem_cons]
    exact ⟨fun ⟨_, ha, hl⟩ => ⟨ha, ih.mp hl⟩, fun ⟨ha, hl⟩ => ⟨(), ha, ih.mpr hl⟩⟩

/-- A loop that collects results succeeds iff each of its steps does. -/
theorem mapM_eq_ok {ε α β : Type} {f : α → Except ε β} {l : List α} {l' : List β} :
    l.mapM f = .ok l' ↔ l.map f = l'.map .ok := by
  induction l generalizing l' with
  | nil =>
    cases l' <;> simp [pure, Except.pure]
  | cons a l ih =>
    simp only [List.mapM_cons, Except.bind_eq_ok, ih, List.map_cons]
    cases l' with
    | nil => simp [pure, Except.pure]
    | cons b l' =>
      simp only [List.map_cons, List.cons.injEq]
      constructor
      · rintro ⟨b', hb', l'', hl'', hcons⟩
        cases hcons
        exact ⟨hb', hl''⟩
      · rintro ⟨hb, hl⟩
        exact ⟨b, hb, l', hl, rfl⟩

/-- A loop that collects results fails in one of its steps. -/
theorem exists_of_mapM_eq_error {ε α β : Type} {f : α → Except ε β} {l : List α} {e : ε}
    (h : l.mapM f = .error e) : ∃ a ∈ l, f a = .error e := by
  induction l with
  | nil => cases h
  | cons a l ih =>
    rw [List.mapM_cons, Except.bind_eq_error] at h
    rcases h with ha | ⟨b, -, h⟩
    · exact ⟨a, List.mem_cons_self, ha⟩
    · rcases Except.bind_eq_error.mp h with hl | ⟨_, _, hpure⟩
      · obtain ⟨a', hmem, ha'⟩ := ih hl
        exact ⟨a', List.mem_cons_of_mem _ hmem, ha'⟩
      · cases hpure

theorem exists_of_forM_eq_error {ε α : Type} {f : α → Except ε Unit} {l : List α} {e : ε}
    (h : l.forM f = .error e) : ∃ a ∈ l, f a = .error e := by
  induction l with
  | nil => cases h
  | cons a l ih =>
    have hcons : (a :: l).forM f = (f a >>= fun _ => l.forM f) := rfl
    rw [hcons, Except.bind_eq_error] at h
    rcases h with ha | ⟨_, -, hl⟩
    · exact ⟨a, List.mem_cons_self, ha⟩
    · obtain ⟨a', hmem, ha'⟩ := ih hl
      exact ⟨a', List.mem_cons_of_mem _ hmem, ha'⟩

/-- What holds of each element of `l ++ [y]` and the elements before it holds of each element of
`l` and those before it, and of `y` and `l`. -/
theorem forall_split_concat {α : Type} {P : List α → α → Prop} {l : List α} {y : α} :
    (∀ before x after, l ++ [y] = before ++ x :: after → P before x) ↔
      (∀ before x after, l = before ++ x :: after → P before x) ∧ P l y := by
  constructor
  · intro h
    exact ⟨fun before x after heq => h before x (after ++ [y]) (by simp [heq]), h l y [] rfl⟩
  · rintro ⟨hl, hy⟩ before x after heq
    rcases List.eq_nil_or_concat after with rfl | ⟨after', last, rfl⟩
    · obtain ⟨rfl, hlast⟩ := List.append_inj' heq rfl
      cases hlast
      exact hy
    · rw [List.concat_eq_append, ← List.cons_append, ← List.append_assoc] at heq
      exact hl before x after' (List.append_inj' heq rfl).1

/-- The steps of a run of `step` over `inputs`: each input with the state it is taken in, up to
the first step that fails. -/
def runTrace (step : σ → α → Except ε σ) : σ → List α → List (σ × α)
  | _, [] => []
  | s, a :: inputs =>
    (s, a) :: match step s a with
      | .ok s' => runTrace step s' inputs
      | .error _ => []

section Run

variable {step : σ → α → Except ε σ} {s s' : σ} {a : α} {inputs : List α}
variable {step' : σ → α → Except ε σ} {τ : Type u} {t : τ}

@[simp]
theorem runTrace_nil : runTrace step s [] = [] := rfl

theorem runTrace_cons_of_ok (h : step s a = .ok s') :
    runTrace step s (a :: inputs) = (s, a) :: runTrace step s' inputs := by
  simp [runTrace, h]

theorem mem_of_mem_runTrace {x : σ × α} (h : x ∈ runTrace step s inputs) : x.2 ∈ inputs := by
  induction inputs generalizing s with
  | nil => cases h
  | cons a inputs ih =>
    rw [runTrace, List.mem_cons] at h
    rcases h with rfl | h
    · exact List.mem_cons_self
    · cases hm : step s a with
      | ok m =>
        rw [hm] at h
        exact List.mem_cons_of_mem _ (ih h)
      | error e =>
        rw [hm] at h
        cases h

/-- A successful run takes a step on each input. -/
theorem map_snd_runTrace (hrun : inputs.foldlM step s = .ok s') :
    (runTrace step s inputs).map Prod.snd = inputs := by
  induction inputs generalizing s with
  | nil => rfl
  | cons a inputs ih =>
    rw [List.foldlM_cons, Except.bind_eq_ok] at hrun
    obtain ⟨m, hm, hrest⟩ := hrun
    rw [runTrace_cons_of_ok hm, List.map_cons, ih hrest]

/-- The steps of a run that goes on. -/
theorem runTrace_append {rest : List α} (hrun : inputs.foldlM step s = .ok s') :
    runTrace step s (inputs ++ rest) = runTrace step s inputs ++ runTrace step s' rest := by
  induction inputs generalizing s with
  | nil =>
    obtain rfl := Except.ok.inj hrun
    rfl
  | cons a inputs ih =>
    rw [List.foldlM_cons, Except.bind_eq_ok] at hrun
    obtain ⟨m, hm, hrest⟩ := hrun
    rw [List.cons_append, runTrace_cons_of_ok hm, runTrace_cons_of_ok hm, ih hrest,
      List.cons_append]

/-- A successful run over `a :: inputs` is a successful step on `a` and a successful run over
`inputs`. -/
theorem foldlM_cons_eq_ok :
    (a :: inputs).foldlM step s = .ok s' ↔
      ∃ m, step s a = .ok m ∧ inputs.foldlM step m = .ok s' := by
  rw [List.foldlM_cons, Except.bind_eq_ok]

theorem foldlM_eq_error {e : ε} :
    inputs.foldlM step s = .error e ↔ ∃ before a after m, inputs = before ++ a :: after ∧
      before.foldlM step s = .ok m ∧ step m a = .error e := by
  induction inputs generalizing s with
  | nil =>
    constructor
    · intro h
      cases h
    · rintro ⟨before, a, after, m, hsplit, -⟩
      simp at hsplit
  | cons b inputs ih =>
    rw [List.foldlM_cons, Except.bind_eq_error]
    constructor
    · rintro (hb | ⟨n, hn, h⟩)
      · exact ⟨[], b, inputs, s, rfl, rfl, hb⟩
      · obtain ⟨before, a, after, m, rfl, hm, ha⟩ := ih.mp h
        exact ⟨b :: before, a, after, m, rfl, foldlM_cons_eq_ok.mpr ⟨n, hn, hm⟩, ha⟩
    · rintro ⟨before, a, after, m, hsplit, hm, ha⟩
      cases before with
      | nil =>
        obtain ⟨rfl, rfl⟩ := List.cons.inj hsplit
        obtain rfl := Except.ok.inj hm
        exact .inl ha
      | cons b' before =>
        obtain ⟨rfl, rfl⟩ := List.cons.inj hsplit
        obtain ⟨n, hn, hm⟩ := foldlM_cons_eq_ok.mp hm
        exact .inr ⟨n, hn, ih.mpr ⟨before, a, after, m, rfl, hm, ha⟩⟩

/-- Two step functions that agree on the steps of a run have the same run. -/
theorem foldlM_eq_of_runTrace (h : ∀ x ∈ runTrace step s inputs, step' x.1 x.2 = step x.1 x.2) :
    inputs.foldlM step' s = inputs.foldlM step s := by
  induction inputs generalizing s with
  | nil => rfl
  | cons a inputs ih =>
    rw [List.foldlM_cons, List.foldlM_cons, h (s, a) List.mem_cons_self]
    cases hm : step s a with
    | error e => rfl
    | ok m =>
      rw [runTrace_cons_of_ok hm, List.forall_mem_cons] at h
      exact ih h.2

/-- A run over lists one after the other is a run of runs. -/
theorem foldlM_flatMap_eq (g : β → List α) (l : List β) (s : σ) :
    (l.flatMap g).foldlM step s = l.foldlM (fun s b => (g b).foldlM step s) s := by
  induction l generalizing s with
  | nil => rfl
  | cons b l ih =>
    rw [List.flatMap_cons, List.foldlM_append, List.foldlM_cons]
    exact bind_congr ih

/-- Inputs on which a successful step does nothing can be left out of a run. -/
theorem foldlM_filter_of_skip {p : α → Bool}
    (hskip : ∀ s a s', p a = false → step s a = .ok s' → s' = s)
    (hrun : inputs.foldlM step s = .ok s') : (inputs.filter p).foldlM step s = .ok s' := by
  induction inputs generalizing s with
  | nil => exact hrun
  | cons a inputs ih =>
    obtain ⟨m, hm, hrest⟩ := foldlM_cons_eq_ok.mp hrun
    cases hp : p a with
    | true =>
      rw [List.filter_cons_of_pos hp]
      exact foldlM_cons_eq_ok.mpr ⟨m, hm, ih hrest⟩
    | false =>
      rw [List.filter_cons_of_neg (by simp [hp]), ← hskip s a m hp hm]
      exact ih hrest

/-- If each successful step of `step` can be followed by `step'` on the translated input, in
states that stay related by `R`, then so can a successful run. -/
theorem foldlM_simulation (R : σ → τ → Prop) (step' : τ → β → Except ε τ) (f : α → β)
    (hstep : ∀ s t a s', a ∈ inputs → R s t → step s a = .ok s' →
      ∃ t', step' t (f a) = .ok t' ∧ R s' t') (hR : R s t) (hrun : inputs.foldlM step s = .ok s') :
    ∃ t', (inputs.map f).foldlM step' t = .ok t' ∧ R s' t' := by
  induction inputs generalizing s t with
  | nil =>
    cases hrun
    exact ⟨t, rfl, hR⟩
  | cons a inputs ih =>
    obtain ⟨m, hm, hrest⟩ := foldlM_cons_eq_ok.mp hrun
    obtain ⟨n, hn, hmn⟩ := hstep s t a m List.mem_cons_self hR hm
    obtain ⟨t', ht', hR'⟩ := ih
      (fun s t b s' hb => hstep s t b s' (List.mem_cons_of_mem _ hb)) hmn hrest
    exact ⟨t', foldlM_cons_eq_ok.mpr ⟨n, hn, ht'⟩, hR'⟩

/-- The same for runs over the same inputs. -/
theorem foldlM_simulation_same (R : σ → τ → Prop) (step' : τ → α → Except ε τ)
    (hstep : ∀ s t a s', a ∈ inputs → R s t → step s a = .ok s' →
      ∃ t', step' t a = .ok t' ∧ R s' t') (hR : R s t) (hrun : inputs.foldlM step s = .ok s') :
    ∃ t', inputs.foldlM step' t = .ok t' ∧ R s' t' := by
  have h := foldlM_simulation R step' id hstep hR hrun
  rwa [List.map_id] at h

/-- A map of states that commutes with every step commutes with a run. -/
theorem foldlM_map_eq {step : σ → α → Except ε σ} {f : σ → σ}
    (h : ∀ s a, step' (f s) a = f <$> step s a) (s : σ) (inputs : List α) :
    inputs.foldlM step' (f s) = f <$> inputs.foldlM step s := by
  induction inputs generalizing s with
  | nil => rfl
  | cons a inputs ih =>
    rw [List.foldlM_cons, List.foldlM_cons, h, map_bind, bind_map_left]
    exact bind_congr ih

/-- Induction along a run: `G` relates the steps taken so far to the state they led to. Each step
may be assumed to satisfy what all steps of the run satisfy. -/
theorem foldlM_trace_induction (G : List (σ × α) → σ → Prop) (P : σ × α → Prop)
    (hstep : ∀ trace s a s', G trace s → P (s, a) → step s a = .ok s' → G (trace ++ [(s, a)]) s')
    {t : List (σ × α)} (hinit : G t s) (hP : ∀ x ∈ runTrace step s inputs, P x)
    (hrun : inputs.foldlM step s = .ok s') : G (t ++ runTrace step s inputs) s' := by
  induction inputs generalizing s t with
  | nil =>
    cases hrun
    simpa using hinit
  | cons a inputs ih =>
    obtain ⟨m, hm, hrest⟩ := foldlM_cons_eq_ok.mp hrun
    rw [runTrace_cons_of_ok hm] at hP ⊢
    have hG := hstep t s a m hinit (hP _ List.mem_cons_self) hm
    have hih := ih hG (fun x hx => hP x (List.mem_cons_of_mem _ hx)) hrest
    rwa [List.append_assoc, List.singleton_append] at hih

/-- What every step of a run preserves, the run preserves, if each step satisfies `P`. -/
theorem foldlM_invariant_of_trace (Inv : σ → Prop) (P : σ × α → Prop)
    (hstep : ∀ s a s', Inv s → P (s, a) → step s a = .ok s' → Inv s') (hinit : Inv s)
    (hP : ∀ x ∈ runTrace step s inputs, P x) (hrun : inputs.foldlM step s = .ok s') : Inv s' :=
  foldlM_trace_induction (fun _ => Inv) P (fun _ => hstep) (t := []) hinit hP hrun

/-- What every step preserves, a run preserves. -/
theorem foldlM_invariant (Inv : σ → Prop) (hstep : ∀ s a s', Inv s → step s a = .ok s' → Inv s')
    (hinit : Inv s) (hrun : inputs.foldlM step s = .ok s') : Inv s' :=
  foldlM_invariant_of_trace Inv (fun _ => True)
    (fun s a s' hs _ h => hstep s a s' hs h) hinit (fun _ _ => trivial) hrun

/-- If every step from a state with `Inv` that satisfies `P` succeeds and keeps `Inv`, a run whose
steps satisfy `P` succeeds. -/
theorem foldlM_total_of_trace (Inv : σ → Prop) (P : σ × α → Prop)
    (hstep : ∀ s a, Inv s → P (s, a) → ∃ s', step s a = .ok s' ∧ Inv s') (hinit : Inv s)
    (hP : ∀ x ∈ runTrace step s inputs, P x) :
    (∃ s', inputs.foldlM step s = .ok s' ∧ Inv s') ∧ ∀ x ∈ runTrace step s inputs, Inv x.1 := by
  induction inputs generalizing s with
  | nil => exact ⟨⟨s, rfl, hinit⟩, by simp⟩
  | cons a inputs ih =>
    have hhead : P (s, a) := hP _ (by simp [runTrace])
    obtain ⟨m, hm, hinv⟩ := hstep s a hinit hhead
    rw [runTrace_cons_of_ok hm] at hP ⊢
    obtain ⟨⟨s', hs', hinv'⟩, htrace⟩ := ih hinv fun x hx => hP x (List.mem_cons_of_mem _ hx)
    refine ⟨⟨s', foldlM_cons_eq_ok.mpr ⟨m, hm, hs'⟩, hinv'⟩, fun x hx => ?_⟩
    rcases List.mem_cons.mp hx with rfl | hx
    · exact hinit
    · exact htrace x hx

/-- The same, if every step on one of the inputs succeeds. -/
theorem foldlM_total (Inv : σ → Prop)
    (hstep : ∀ s, ∀ a ∈ inputs, Inv s → ∃ s', step s a = .ok s' ∧ Inv s') (hinit : Inv s) :
    ∃ s', inputs.foldlM step s = .ok s' ∧ Inv s' :=
  (foldlM_total_of_trace Inv (fun x => x.2 ∈ inputs) (fun s a hs ha => hstep s a ha hs) hinit
    fun _ => mem_of_mem_runTrace).1

end Run

section Partial

variable {step : σ → α → Option σ} {s s' : σ} {inputs : List α}

/-- What every step on one of the inputs preserves, a run of partial steps preserves. -/
theorem foldlM_some_invariant (Inv : σ → Prop)
    (hstep : ∀ s, ∀ a ∈ inputs, ∀ s', Inv s → step s a = some s' → Inv s') (hinit : Inv s)
    (hrun : inputs.foldlM step s = some s') : Inv s' := by
  induction inputs generalizing s with
  | nil =>
    cases hrun
    exact hinit
  | cons a inputs ih =>
    rw [List.foldlM_cons] at hrun
    obtain ⟨m, hm, hrest⟩ := Option.bind_eq_some_iff.mp hrun
    exact ih (fun s b hb => hstep s b (List.mem_cons_of_mem _ hb))
      (hstep s a List.mem_cons_self m hinit hm) hrest

end Partial
