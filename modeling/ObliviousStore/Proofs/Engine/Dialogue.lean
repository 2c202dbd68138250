/-
  Dialogues with an engine.

  What an operation does beside an engine is a tree of calls and answers
  (`Dialogue`), the same for every engine: an operation that is a dialogue
  (`Op.Converses`) neither looks into its engine nor puts another in its place, and
  the calls it makes are those along the path that the answers take
  (`Dialogue.exchanges`), each on the engine that the one before left
  (`linked_exchanges`).
-/
import ObliviousStore.Engine.Basic
import ObliviousStore.Proofs.Op

namespace ObliviousStore

variable {E ρ κ σ τ α β : Type}

/-! ## Calls and answers -/

/-- A call to an engine, with its arguments. -/
inductive Query where
  | randomBytes (n : Nat)
  | encrypt (iv : Iv) (associated text : Bytes)
  | decrypt (iv : Iv) (associated ciphertext : Bytes)
  | shuffle (n : Nat)

/-- What a call returns unless it fails. -/
abbrev Query.Reply : Query → Type
  | randomBytes n => Vector UInt8 n
  | encrypt .. | decrypt .. => Bytes
  | shuffle _ => Swaps

def Query.call [CryptoEngine E] : (q : Query) → Call E q.Reply
  | randomBytes n => CryptoEngine.randomBytes n
  | encrypt iv associated text => CryptoEngine.encrypt iv associated text
  | decrypt iv associated ciphertext => CryptoEngine.decrypt iv associated ciphertext
  | shuffle n => CryptoEngine.shuffle n

/-- A call that was made and its answer, with the engine before and after it. -/
structure Exchange (E : Type) where
  query : Query
  before : E
  answer : Except StoreError query.Reply
  after : E

/-- The exchanges are calls made one after another, the first on `e`, which leave
    the engine `e'`. -/
def Linked [CryptoEngine E] (e : E) : List (Exchange E) → E → Prop
  | [], e' => e' = e
  | c :: l, e' => c.before = e ∧ c.query.call e = (c.answer, c.after) ∧ Linked c.after l e'

theorem Linked.append [CryptoEngine E] {e e₁ e' : E} {l l' : List (Exchange E)}
    (h : Linked e l e₁) (h' : Linked e₁ l' e') : Linked e (l ++ l') e' := by
  induction l generalizing e with
  | nil =>
    obtain rfl : e₁ = e := h
    exact h'
  | cons c l ih =>
    obtain ⟨hbefore, hcall, hrest⟩ := h
    exact ⟨hbefore, hcall, ih hrest⟩

/-! ## Dialogues -/

/-- A computation that knows an engine by its answers alone. -/
inductive Dialogue (ρ : Type) where
  | done (r : ρ)
  | ask (q : Query) (next : Except StoreError q.Reply → Dialogue ρ)

namespace Dialogue

def bind : Dialogue ρ → (ρ → Dialogue κ) → Dialogue κ
  | done r, f => f r
  | ask q next, f => ask q fun answer => (next answer).bind f

/-- What a dialogue with an engine comes to, and the engine after it. -/
def hold [CryptoEngine E] : Dialogue ρ → E → ρ × E
  | done r, e => (r, e)
  | ask q next, e => (next (q.call e).1).hold (q.call e).2

/-- The calls of a dialogue with an engine, in order. -/
def exchanges [CryptoEngine E] : Dialogue ρ → E → List (Exchange E)
  | done _, _ => []
  | ask q next, e =>
    ⟨q, e, (q.call e).1, (q.call e).2⟩ :: (next (q.call e).1).exchanges (q.call e).2

variable [CryptoEngine E]

@[simp] theorem hold_done (r : ρ) (e : E) : (done r).hold e = (r, e) := rfl

@[simp] theorem exchanges_done (r : ρ) (e : E) : (done r).exchanges e = [] := rfl

theorem hold_bind (d : Dialogue ρ) (f : ρ → Dialogue κ) (e : E) :
    (d.bind f).hold e = (f (d.hold e).1).hold (d.hold e).2 := by
  induction d generalizing e with
  | done r => rfl
  | ask q next ih => exact ih (q.call e).1 (q.call e).2

theorem exchanges_bind (d : Dialogue ρ) (f : ρ → Dialogue κ) (e : E) :
    (d.bind f).exchanges e = d.exchanges e ++ (f (d.hold e).1).exchanges (d.hold e).2 := by
  induction d generalizing e with
  | done r => rfl
  | ask q next ih =>
    simp only [bind, exchanges, hold, List.cons_append]
    rw [ih]

omit [CryptoEngine E] in
theorem bind_assoc {ι : Type} (d : Dialogue ρ) (f : ρ → Dialogue κ) (g : κ → Dialogue ι) :
    (d.bind f).bind g = d.bind fun r => (f r).bind g := by
  induction d with
  | done r => rfl
  | ask q next ih => exact congrArg (ask q) (funext ih)

omit [CryptoEngine E] in
theorem bind_done (d : Dialogue ρ) {f : ρ → Dialogue ρ} (hf : ∀ r, f r = .done r) :
    d.bind f = d := by
  induction d with
  | done r => exact hf r
  | ask q next ih => exact congrArg (ask q) (funext ih)

theorem linked_exchanges (d : Dialogue ρ) (e : E) : Linked e (d.exchanges e) (d.hold e).2 := by
  induction d generalizing e with
  | done r => rfl
  | ask q next ih => exact ⟨rfl, rfl, ih (q.call e).1 (q.call e).2⟩

end Dialogue

/-! ## Scripts -/

/-- What an operation says to its engine, from each state beside it: a dialogue that
    comes to a result and a state. -/
abbrev Script (σ α : Type) : Type := σ → Dialogue (Except StoreError α × σ)

namespace Script

/-- No call is made. -/
def silent (f : σ → Except StoreError α × σ) : Script σ α := fun s => .done (f s)

def pure (a : α) : Script σ α := silent fun s => (.ok a, s)

/-- One call, whose answer is the result. -/
def query (q : Query) : Script σ q.Reply := fun s => .ask q fun answer => .done (answer, s)

/-- A buffer of so many bytes is made, if there can be one. -/
def reserve (bytes : Nat) : Script σ Unit :=
  silent fun s => (if bytes ≤ Bytes.maxLength then .ok () else .error .oversizedBuffer, s)

def bind (d : Script σ α) (f : α → Script σ β) : Script σ β := fun s =>
  (d s).bind fun
    | (.error err, s') => .done (.error err, s')
    | (.ok a, s') => f a s'

/-- One script for each member of a list, with the results in order. -/
def mapM (f : α → Script σ β) : List α → Script σ (List β)
  | [] => pure []
  | a :: as => (f a).bind fun b => (mapM f as).bind fun bs => pure (b :: bs)

/-- A script that changes each member of a list in turn. -/
def forEach (f : Script α Unit) : Script (List α) Unit
  | [] => .done (.ok (), [])
  | a :: as =>
    (f a).bind fun
      | (.error err, a') => .done (.error err, a' :: as)
      | (.ok (), a') => (forEach f as).bind fun (r, as') => .done (r, a' :: as')

/-- A script for a value that lives only as long as it runs. -/
def within (a : α) (f : Script α Unit) : Script σ α := fun s =>
  (f a).bind fun (r, a') => .done (r.map fun _ => a', s)

/-! ### Scripts with other values -/

/-- The same is said, and the value that it comes to is changed. -/
def map (g : α → β) (d : Script σ α) : Script σ β := fun s =>
  (d s).bind fun (r, s') => .done (r.map g, s')

theorem map_bind {γ : Type} (d : Script σ α) (f : α → Script σ β) (g : β → γ) :
    (d.bind f).map g = d.bind fun a => (f a).map g := by
  ext s
  simp only [map, bind, Dialogue.bind_assoc]
  congr 1
  ext ⟨r, s'⟩
  cases r <;> rfl

theorem bind_map {γ : Type} (d : Script σ α) (g : α → β) (f : β → Script σ γ) :
    (d.map g).bind f = d.bind fun a => f (g a) := by
  ext s
  simp only [map, bind, Dialogue.bind_assoc]
  congr 1
  ext ⟨r, s'⟩
  cases r <;> rfl

theorem mapM_map {f f' : α → Script σ β} {g : β → β} (as : List α)
    (hf : ∀ a ∈ as, f' a = (f a).map g) : mapM f' as = (mapM f as).map (List.map g) := by
  induction as with
  | nil => rfl
  | cons a as ih =>
    obtain ⟨ha, has⟩ := List.forall_mem_cons.1 hf
    rw [mapM, ha, ih has, bind_map, mapM, map_bind]
    congr 1
    ext b
    rw [bind_map, map_bind]
    rfl

theorem bind_assoc {γ : Type} (d : Script σ α) (f : α → Script σ β) (g : β → Script σ γ) :
    (d.bind f).bind g = d.bind fun a => (f a).bind g := by
  ext s
  simp only [bind, Dialogue.bind_assoc]
  congr 1
  ext ⟨r, s'⟩
  cases r <;> rfl

theorem mapM_append (f : α → Script σ β) (as as' : List α) :
    mapM f (as ++ as') = (mapM f as).bind fun bs => (mapM f as').bind fun bs' =>
      pure (bs ++ bs') := by
  induction as with
  | nil =>
    ext s
    exact (Dialogue.bind_done _ fun r => by rcases r with ⟨_ | _, _⟩ <;> rfl).symm
  | cons a as ih =>
    rw [List.cons_append, mapM, ih, mapM, bind_assoc]
    congr 1
    ext b
    simp only [bind_assoc]
    rfl

/-! ### The calls of a script -/

section exchanges

variable [CryptoEngine E] {e e₁ : E} {s s' : σ} {a : α}

theorem exchanges_bind_ok {d : Script σ α} (f : α → Script σ β)
    (h : (d s).hold e = ((.ok a, s'), e₁)) :
    (d.bind f s).exchanges e = (d s).exchanges e ++ (f a s').exchanges e₁ := by
  rw [bind, Dialogue.exchanges_bind, h]

/-- What says nothing adds no call. -/
theorem exchanges_bind_silent (d : Script σ α) {f : α → Script σ β}
    (hf : ∀ a s (e : E), (f a s).exchanges e = []) (s : σ) (e : E) :
    (d.bind f s).exchanges e = (d s).exchanges e := by
  rw [bind, Dialogue.exchanges_bind]
  rcases (d s).hold e with ⟨⟨err | a, s'⟩, e₁⟩
  · exact List.append_nil _
  · rw [hf, List.append_nil]

theorem exchanges_map (g : α → β) (d : Script σ α) (s : σ) (e : E) :
    (d.map g s).exchanges e = (d s).exchanges e := by
  rw [map, Dialogue.exchanges_bind]
  exact List.append_nil _

theorem hold_map (g : α → β) (d : Script σ α) (s : σ) (e : E) :
    (d.map g s).hold e = ((((d s).hold e).1.1.map g, ((d s).hold e).1.2), ((d s).hold e).2) := by
  rw [map, Dialogue.hold_bind]
  rfl

theorem exchanges_forEach_cons_ok {d : Script α Unit} {a' : α}
    (h : (d a).hold e = ((.ok (), a'), e₁)) (as : List α) :
    (forEach d (a :: as)).exchanges e = (d a).exchanges e ++ (forEach d as).exchanges e₁ := by
  rw [forEach, Dialogue.exchanges_bind, h, Dialogue.exchanges_bind]
  exact congrArg _ (List.append_nil _)

theorem exchanges_within (a : α) (d : Script α Unit) (s : σ) (e : E) :
    (within a d s).exchanges e = (d a).exchanges e := by
  rw [within, Dialogue.exchanges_bind]
  exact List.append_nil _

end exchanges

end Script

/-! ## Operations that are dialogues -/

namespace Op

/-- The run of an operation beside an engine is the dialogue of a script. -/
def Converses [CryptoEngine E] (x : Op (σ × E) α) (d : Script σ α) : Prop :=
  ∀ s e, (x.run (s, e)).result = ((d s).hold e).1.1 ∧
    (x.run (s, e)).state = (((d s).hold e).1.2, ((d s).hold e).2)

namespace Converses

variable [CryptoEngine E]

theorem hold_eq {x : Op (σ × E) α} {d : Script σ α} (h : Converses x d) {s s' : σ} {e e' : E}
    {r : Except StoreError α} {l : List Event} (hrun : x.run (s, e) = ⟨r, (s', e'), l⟩) :
    (d s).hold e = ((r, s'), e') := by
  obtain ⟨hr, hs⟩ := h s e
  rw [hrun] at hr hs
  obtain ⟨hs, he⟩ := Prod.mk.inj hs
  exact Prod.ext (Prod.ext hr.symm hs.symm) he.symm

theorem reserve (bytes : Nat) : Converses (Op.reserve bytes : Op (σ × E) Unit) (.reserve bytes) := by
  intro s e
  simp only [Op.reserve, Script.reserve, Script.silent, Dialogue.hold_done]
  split <;> exact ⟨rfl, rfl⟩

theorem pure (a : α) : Converses (Pure.pure a : Op (σ × E) α) (.pure a) := fun _ _ => ⟨rfl, rfl⟩

theorem onFst (x : Op σ α) :
    Converses (Op.onFst x : Op (σ × E) α) (.silent fun s => ((x.run s).result, (x.run s).state)) :=
  fun _ _ => ⟨rfl, rfl⟩

theorem query (q : Query) : Converses (Op.onSnd (Op.call q.call) : Op (σ × E) q.Reply) (.query q) :=
  fun _ _ => ⟨rfl, rfl⟩

theorem bind {x : Op (σ × E) α} {f : α → Op (σ × E) β} {d : Script σ α} {g : α → Script σ β}
    (hx : Converses x d) (hf : ∀ a, Converses (f a) (g a)) :
    Converses (x >>= f) (d.bind g) := by
  intro s e
  obtain ⟨hr, hs⟩ := hx s e
  rw [Op.run_bind, Script.bind, Dialogue.hold_bind]
  rcases hd : (d s).hold e with ⟨⟨r, s'⟩, e'⟩
  rcases hrun : x.run (s, e) with ⟨r', st, l⟩
  rw [hd, hrun] at hr hs
  obtain rfl : r' = r := hr
  obtain rfl : st = (s', e') := hs
  cases r' with
  | error err => exact ⟨rfl, rfl⟩
  | ok a => exact hf a s' e'

theorem report_bind {f : Unit → Op (σ × E) α} {d : Script σ α} (event : Event)
    (hf : Converses (f ()) d) : Converses (Op.report event >>= f) d := hf

theorem mapM {f : α → Op E β} {g : α → Script σ β}
    (hf : ∀ a, Converses (Op.onSnd (f a)) (g a)) (as : List α) :
    Converses (Op.onSnd (as.mapM f)) (.mapM g as) := by
  induction as with
  | nil => exact .pure []
  | cons a as ih =>
    simp only [List.mapM_cons, onSnd_bind]
    exact .bind (hf a) fun b => .bind ih fun bs => .pure (b :: bs)

theorem forEach {x : Op (α × E) Unit} {d : Script α Unit} (hx : Converses x d) :
    Converses (Op.forEach x) (.forEach d) := by
  intro as e
  induction as generalizing e with
  | nil =>
    rw [run_forEach_nil]
    exact ⟨rfl, rfl⟩
  | cons a as ih =>
    obtain ⟨hr, hs⟩ := hx a e
    rw [Script.forEach, Dialogue.hold_bind]
    rcases hd : (d a).hold e with ⟨⟨r, a'⟩, e'⟩
    rcases hrun : x.run (a, e) with ⟨r', st, l⟩
    rw [hd, hrun] at hr hs
    obtain rfl : r' = r := hr
    obtain rfl : st = (a', e') := hs
    cases r' with
    | error err =>
      rw [run_forEach_cons_error hrun]
      exact ⟨rfl, rfl⟩
    | ok u =>
      obtain ⟨hr', hs'⟩ := ih e'
      rw [run_forEach_cons_ok hrun, hr', hs', Dialogue.hold_bind]
      exact ⟨rfl, rfl⟩

theorem within {x : Op (α × E) Unit} {d : Script α Unit} (hx : Converses x d) (a : α) :
    Converses (Op.onSnd (Op.within a x) : Op (σ × E) α) (.within a d) := by
  intro s e
  obtain ⟨hr, hs⟩ := hx a e
  rw [run_onSnd, run_within, hr, hs, Script.within, Dialogue.hold_bind]
  exact ⟨rfl, rfl⟩

/-- Operations on an engine alone whose dialogues differ in the value that they come
    to. -/
theorem run_map {x x' : Op E α} {d : Script σ α} {g : α → α} (hx : Converses (Op.onSnd x) d)
    (hx' : Converses (Op.onSnd x') (d.map g)) (s : σ) (e : E) :
    (x'.run e).result = (x.run e).result.map g ∧ (x'.run e).state = (x.run e).state := by
  obtain ⟨hr, hs⟩ := hx s e
  obtain ⟨hr', hs'⟩ := hx' s e
  rw [Script.hold_map] at hr' hs'
  rw [run_onSnd] at hr hs hr' hs'
  exact ⟨hr'.trans (congrArg (Except.map g) hr.symm),
    (congrArg Prod.snd hs').trans (congrArg Prod.snd hs).symm⟩

end Converses

end Op

end ObliviousStore
