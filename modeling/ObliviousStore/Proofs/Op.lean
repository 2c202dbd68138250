/-
  Runs of operations — one step after another, and over the members of a list.

  What a run of an operation makes of one member, a run over a list makes of
  every member (`forall₂_of_run_forEach`, `forall₂_of_run_mapM`).  What an operation
  keeps of the state, also when it fails, every operation built on it keeps
  (`Keeps`), and what is built of operations reports no more than they do
  (`Reports`).
-/
import Mathlib.Data.List.Forall2
import ObliviousStore.Op

namespace ObliviousStore.Op

variable {σ τ α β : Type}

@[simp] theorem run_modify (f : σ → σ) (s : σ) :
    (modify f : Op σ PUnit).run s = ⟨.ok (), f s, []⟩ := rfl

/-- A run goes on with its value, or ends with its failure. -/
theorem run_bind (x : Op σ α) (f : α → Op σ β) (s : σ) :
    (x >>= f).run s =
      match x.run s with
      | ⟨.error e, s', l⟩ => ⟨.error e, s', l⟩
      | ⟨.ok a, s', l⟩ =>
        ⟨((f a).run s').result, ((f a).run s').state, l ++ ((f a).run s').log⟩ := rfl

/-- A run that succeeds did so step by step. -/
theorem of_run_bind {x : Op σ α} {f : α → Op σ β} {b : β} {s s' : σ} {l : List Event}
    (h : (x >>= f).run s = ⟨.ok b, s', l⟩) :
    ∃ a s₁ l₁ l₂, x.run s = ⟨.ok a, s₁, l₁⟩ ∧ (f a).run s₁ = ⟨.ok b, s', l₂⟩ ∧ l = l₁ ++ l₂ := by
  rw [run_bind] at h
  rcases hx : x.run s with ⟨err | a, s₁, l₁⟩
  · rw [hx] at h
    exact absurd (congrArg Outcome.result h) (by simp)
  · rw [hx, Outcome.mk.injEq] at h
    obtain ⟨hr, hs, rfl⟩ := h
    refine ⟨a, s₁, l₁, ((f a).run s₁).log, rfl, ?_, rfl⟩
    rw [← hr, ← hs]

/-- What a run answers, it answers with a state and a log. -/
theorem exists_run_eq {x : Op σ α} {s : σ} {r : Except StoreError α} (h : (x.run s).result = r) :
    ∃ s' l, x.run s = ⟨r, s', l⟩ := by
  subst h
  exact ⟨_, _, rfl⟩

/-- A run whose value is not asked for. -/
theorem run_discard (x : Op σ α) (s : σ) :
    (x >>= fun _ => pure ()).run s =
      ⟨(x.run s).result.map fun _ => (), (x.run s).state, (x.run s).log⟩ := by
  rw [run_bind]
  rcases x.run s with ⟨e | a, s', l⟩
  · rfl
  · simp only [run_pure, List.append_nil]
    rfl

theorem state_reserve (bytes : Nat) (s : σ) : ((reserve bytes).run s).state = s := by
  unfold reserve
  split <;> rfl

theorem onSnd_bind (x : Op τ α) (f : α → Op τ β) :
    (onSnd (x >>= f) : Op (σ × τ) β) = onSnd x >>= fun a => onSnd (f a) := by
  ext ⟨s, t⟩
  rw [run_onSnd, run_bind, run_bind, run_onSnd]
  rcases x.run t with ⟨e | a, t', l⟩
  · rfl
  · rfl

theorem onSnd_report (e : Event) : (onSnd (report e) : Op (σ × τ) Unit) = report e := rfl

theorem onSnd_reserve (bytes : Nat) : (onSnd (reserve bytes) : Op (σ × τ) Unit) = reserve bytes := by
  unfold reserve
  split <;> rfl

/-! ## Over a list -/

section forEach

variable {x : Op (α × σ) Unit}

theorem run_forEach_nil (s : σ) : (forEach x).run ([], s) = ⟨.ok (), ([], s), []⟩ := by
  rw [run, forEach]

theorem run_forEach_cons_ok {a a' : α} {s s' : σ} {l : List Event}
    (h : x.run (a, s) = ⟨.ok (), (a', s'), l⟩) (as : List α) :
    (forEach x).run (a :: as, s) =
      ⟨((forEach x).run (as, s')).result,
        (a' :: ((forEach x).run (as, s')).state.1, ((forEach x).run (as, s')).state.2),
        l ++ ((forEach x).run (as, s')).log⟩ := by
  simp only [run] at h ⊢
  simp only [forEach, h]

theorem run_forEach_singleton {a a' : α} {s s' : σ} {l : List Event}
    (h : x.run (a, s) = ⟨.ok (), (a', s'), l⟩) :
    (forEach x).run ([a], s) = ⟨.ok (), ([a'], s'), l⟩ := by
  rw [run_forEach_cons_ok h, run_forEach_nil, List.append_nil]

theorem run_forEach_cons_error {a a' : α} {s s' : σ} {e : StoreError} {l : List Event}
    (h : x.run (a, s) = ⟨.error e, (a', s'), l⟩) (as : List α) :
    (forEach x).run (a :: as, s) = ⟨.error e, (a' :: as, s'), l⟩ := by
  simp only [run] at h ⊢
  simp only [forEach, h]

/-- A run over a list keeps its length, also when it fails. -/
theorem length_forEach (as : List α) (s : σ) :
    ((forEach x).run (as, s)).state.1.length = as.length := by
  induction as generalizing s with
  | nil => rw [run_forEach_nil]
  | cons a as ih =>
    rcases h : x.run (a, s) with ⟨e | u, ⟨a', s'⟩, l⟩
    · rw [run_forEach_cons_error h, List.length_cons, List.length_cons]
    · rw [run_forEach_cons_ok h, List.length_cons, ih, List.length_cons]

/-- A run over a list that succeeds did so on its first member and on the others. -/
theorem of_run_forEach_cons {a : α} {as as' : List α} {s s' : σ} {l : List Event}
    (h : (forEach x).run (a :: as, s) = ⟨.ok (), (as', s'), l⟩) :
    ∃ a' as₁ s₁ l₁ l₂, as' = a' :: as₁ ∧ x.run (a, s) = ⟨.ok (), (a', s₁), l₁⟩ ∧
      (forEach x).run (as, s₁) = ⟨.ok (), (as₁, s'), l₂⟩ := by
  rcases ha : x.run (a, s) with ⟨e | u, ⟨a', s₁⟩, l₁⟩
  · rw [run_forEach_cons_error ha, Outcome.mk.injEq] at h
    exact absurd h.1 (by simp)
  · rcases hrest : (forEach x).run (as, s₁) with ⟨r, ⟨as₁, s₂⟩, l₂⟩
    rw [run_forEach_cons_ok ha, hrest, Outcome.mk.injEq, Prod.mk.injEq] at h
    obtain ⟨rfl, ⟨rfl, rfl⟩, -⟩ := h
    exact ⟨a', as₁, s₁, l₁, l₂, rfl, rfl, hrest⟩

/-- A run over a list that succeeds relates every member to what it was before
    as the runs on single members do. -/
theorem forall₂_of_run_forEach {I : σ → Prop} {R : α → α → Prop}
    (hstep : ∀ a s a' s' l, I s → x.run (a, s) = ⟨.ok (), (a', s'), l⟩ → R a a' ∧ I s')
    {as as' : List α} {s s' : σ} {l : List Event} (hs : I s)
    (h : (forEach x).run (as, s) = ⟨.ok (), (as', s'), l⟩) : List.Forall₂ R as as' := by
  induction as generalizing as' s s' l with
  | nil =>
    rw [run_forEach_nil, Outcome.mk.injEq, Prod.mk.injEq] at h
    rw [← h.2.1.1]
    exact .nil
  | cons a as ih =>
    obtain ⟨a', as₁, s₁, l₁, l₂, rfl, ha, hrest⟩ := of_run_forEach_cons h
    obtain ⟨hr, hi⟩ := hstep a s a' s₁ l₁ hs ha
    exact .cons hr (ih hi hrest)

end forEach

/-- The values of a run over a list that succeeds are those of runs on its members. -/
theorem forall₂_of_run_mapM {f : α → Op σ β} {R : α → β → Prop}
    (hstep : ∀ a s b s' l, (f a).run s = ⟨.ok b, s', l⟩ → R a b) {as : List α} {bs : List β}
    {s s' : σ} {l : List Event} (h : (as.mapM f).run s = ⟨.ok bs, s', l⟩) :
    List.Forall₂ R as bs := by
  induction as generalizing bs s s' l with
  | nil =>
    obtain rfl : [] = bs := Except.ok.inj (congrArg Outcome.result h)
    exact .nil
  | cons a as ih =>
    rw [List.mapM_cons] at h
    obtain ⟨b, s₁, l₁, l₂, ha, hrest, -⟩ := of_run_bind h
    obtain ⟨bs', s₂, l₃, l₄, has, hpure, -⟩ := of_run_bind hrest
    obtain rfl : b :: bs' = bs := Except.ok.inj (congrArg Outcome.result hpure)
    exact .cons (hstep a s b s₁ l₁ ha) (ih has)

/-! ## What operations keep -/

/-- An operation keeps what holds of the state, also when it fails. -/
def Keeps (I : σ → Prop) (x : Op σ α) : Prop := ∀ s, I s → I (x.run s).state

namespace Keeps

theorem pure (I : σ → Prop) (a : α) : Keeps I (pure a) := fun _ h => h

theorem bind {I : σ → Prop} {x : Op σ α} {f : α → Op σ β} (hx : Keeps I x)
    (hf : ∀ a, Keeps I (f a)) : Keeps I (x >>= f) := by
  intro s hs
  have hi := hx s hs
  rw [run_bind]
  rcases h : x.run s with ⟨e | a, s', l⟩
  · rw [h] at hi
    exact hi
  · rw [h] at hi
    exact hf a s' hi

theorem report (I : σ → Prop) (e : Event) : Keeps I (report e) := fun _ h => h

theorem ofExcept (I : σ → Prop) (r : Except StoreError α) : Keeps I (ofExcept r) := fun _ h => h

theorem listMapM {I : σ → Prop} {f : α → Op σ β} (hf : ∀ a, Keeps I (f a)) (as : List α) :
    Keeps I (as.mapM f) := by
  induction as with
  | nil => exact .pure I []
  | cons a as ih =>
    rw [List.mapM_cons]
    exact .bind (hf a) fun b => .bind ih fun bs => .pure I (b :: bs)

theorem listForM {I : σ → Prop} {f : α → Op σ PUnit} (hf : ∀ a, Keeps I (f a)) (as : List α) :
    Keeps I (as.forM f) := by
  induction as with
  | nil => exact .pure I PUnit.unit
  | cons a as ih => exact .bind (hf a) fun _ => ih

theorem onFst (I : τ → Prop) (x : Op σ α) :
    Keeps (fun st : σ × τ => I st.2) (Op.onFst x) := fun _ h => h

theorem onSnd {I : τ → Prop} {x : Op τ α} (hx : Keeps I x) :
    Keeps (fun st : σ × τ => I st.2) (Op.onSnd x) := fun st h => hx st.2 h

theorem within {I : σ → Prop} {x : Op (α × σ) Unit} (hx : Keeps (fun st => I st.2) x) (a : α) :
    Keeps I (Op.within a x) := fun s h => hx (a, s) h

theorem forEach {I : σ → Prop} {x : Op (α × σ) Unit} (hx : Keeps (fun st => I st.2) x) :
    Keeps (fun st => I st.2) (Op.forEach x) := by
  rintro ⟨as, s⟩ hs
  induction as generalizing s with
  | nil => rwa [run_forEach_nil]
  | cons a as ih =>
    have ha := hx (a, s) hs
    rcases h : x.run (a, s) with ⟨e | u, ⟨a', s'⟩, l⟩
    · rw [h] at ha
      rw [run_forEach_cons_error h]
      exact ha
    · rw [h] at ha
      rw [run_forEach_cons_ok h]
      exact ih s' ha

end Keeps

/-! ## Operations that succeed -/

/-- An operation succeeds from every state. -/
def Succeeds (x : Op σ α) : Prop := ∀ s, ∃ a, (x.run s).result = .ok a

namespace Succeeds

theorem pure (a : α) : Succeeds (pure a : Op σ α) := fun _ => ⟨a, rfl⟩

theorem report (e : Event) : Succeeds (report e : Op σ Unit) := fun _ => ⟨(), rfl⟩

theorem ofExcept {r : Except StoreError α} (h : ∃ a, r = .ok a) :
    Succeeds (ofExcept r : Op σ α) := fun _ => h

theorem bind {x : Op σ α} {f : α → Op σ β} (hx : Succeeds x) (hf : ∀ a, Succeeds (f a)) :
    Succeeds (x >>= f) := by
  intro s
  obtain ⟨a, ha⟩ := hx s
  rw [run_bind]
  rcases h : x.run s with ⟨err | a', s', l⟩
  · rw [h] at ha
    exact absurd ha (by simp)
  · exact hf a' s'

theorem listMapM {f : α → Op σ β} {as : List α} (hf : ∀ a ∈ as, Succeeds (f a)) :
    Succeeds (as.mapM f) := by
  induction as with
  | nil => exact .pure []
  | cons a as ih =>
    obtain ⟨ha, has⟩ := List.forall_mem_cons.1 hf
    rw [List.mapM_cons]
    exact .bind ha fun b => .bind (ih has) fun bs => .pure (b :: bs)

theorem listForM {f : α → Op σ PUnit} (hf : ∀ a, Succeeds (f a)) (as : List α) :
    Succeeds (as.forM f) := by
  induction as with
  | nil => exact .pure PUnit.unit
  | cons a as ih => exact .bind (hf a) fun _ => ih

end Succeeds

/-! ## What operations report -/

/-- All that an operation reports is of one kind, also when it fails. -/
def Reports (P : Event → Prop) (x : Op σ α) : Prop := ∀ s, ∀ event ∈ (x.run s).log, P event

namespace Reports

variable {P : Event → Prop}

theorem silent {x : Op σ α} (h : ∀ s, (x.run s).log = []) : Reports P x := by
  intro s event hevent
  rw [h s] at hevent
  exact absurd hevent List.not_mem_nil

theorem log_eq_nil {x : Op σ α} (h : Reports (fun _ => False) x) (s : σ) : (x.run s).log = [] :=
  List.eq_nil_iff_forall_not_mem.2 (h s)

theorem reserve (bytes : Nat) : Reports P (reserve bytes : Op σ Unit) := by
  refine silent fun s => ?_
  unfold Op.reserve
  split <;> rfl

theorem report {e : Event} (h : P e) : Reports P (report e : Op σ Unit) := by
  intro s event hevent
  obtain rfl : event = e := List.mem_singleton.1 hevent
  exact h

theorem bind {x : Op σ α} {f : α → Op σ β} (hx : Reports P x) (hf : ∀ a, Reports P (f a)) :
    Reports P (x >>= f) := by
  intro s event hevent
  rw [run_bind] at hevent
  rcases h : x.run s with ⟨err | a, s', l⟩
  · rw [h] at hevent
    exact hx s event (by rwa [h])
  · rw [h] at hevent
    rcases List.mem_append.1 hevent with hfirst | hrest
    · exact hx s event (by rwa [h])
    · exact hf a s' event hrest

theorem onSnd {x : Op τ α} (hx : Reports P x) : Reports P (Op.onSnd x : Op (σ × τ) α) :=
  fun st => hx st.2

theorem within {x : Op (α × σ) Unit} (hx : Reports P x) (a : α) : Reports P (Op.within a x) :=
  fun s => hx (a, s)

theorem forEach {x : Op (α × σ) Unit} (hx : Reports P x) : Reports P (Op.forEach x) := by
  rintro ⟨as, s⟩
  induction as generalizing s with
  | nil =>
    rw [run_forEach_nil]
    exact List.forall_mem_nil _
  | cons a as ih =>
    intro event hevent
    rcases h : x.run (a, s) with ⟨err | u, ⟨a', s'⟩, l⟩
    · rw [run_forEach_cons_error h] at hevent
      exact hx (a, s) event (by rwa [h])
    · rw [run_forEach_cons_ok h] at hevent
      rcases List.mem_append.1 hevent with hfirst | hrest
      · exact hx (a, s) event (by rwa [h])
      · exact ih s' event hrest

theorem listMapM {f : α → Op σ β} (hf : ∀ a, Reports P (f a)) (as : List α) :
    Reports P (as.mapM f) := by
  induction as with
  | nil => exact silent fun _ => rfl
  | cons a as ih =>
    rw [List.mapM_cons]
    exact .bind (hf a) fun b => .bind ih fun bs => silent fun _ => rfl

theorem listForM {f : α → Op σ PUnit} (hf : ∀ a, Reports P (f a)) (as : List α) :
    Reports P (as.forM f) := by
  induction as with
  | nil => exact silent fun _ => rfl
  | cons a as ih => exact .bind (hf a) fun _ => ih

end Reports

end ObliviousStore.Op
