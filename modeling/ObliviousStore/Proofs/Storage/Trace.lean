/-
  What shows of an access (`trace_of_outcome`).

  An observer of a backend sees which buckets are touched.  A call shows what its
  address and its outcome tell (`BackendCall.seen_op`), as nothing but storing and fetching
  reports a bucket being touched: neither the engine, nor what is stored, nor the
  change of an access makes a difference.
-/
import ObliviousStore.Proofs.Storage.Call

namespace ObliviousStore

variable {S A X E β : Type} {size : Nat}

/-- What shows in a log of buckets being touched. -/
def Event.seen (l : List Event) : List Event := l.filter (·.access?.isSome)

theorem Event.seen_append (l l' : List Event) : seen (l ++ l') = seen l ++ seen l' :=
  List.filter_append l l'

/-! ## Blocks -/

namespace Block

variable [CryptoEngine E] {P : Event → Prop}

theorem reports_encrypt : Op.Reports P (encrypt : Op (Block size × E) Unit) := by
  refine .silent ?_
  rintro ⟨b, e⟩
  by_cases hn : b.isNormal
  · rw [run_encrypt_of_isNormal hn]
    rcases CryptoEngine.randomBytes ivSize e with ⟨err | iv, e₁⟩
    · rfl
    · simp only
      rcases (b.withIv iv).sealCall e₁ with ⟨err | result, e₂⟩
      · rfl
      · simp only
        split <;> rfl
  · rw [run_encrypt_of_not_isNormal hn]

theorem reports_decrypt : Op.Reports P (decrypt : Op (Block size × E) Unit) := by
  refine .silent ?_
  rintro ⟨b, e⟩
  by_cases hn : b.isNormal
  · rw [run_decrypt_of_isNormal hn]
    rcases b.unsealCall e with ⟨err | text, e₁⟩
    · rfl
    · simp only
      split <;> rfl
  · rw [run_decrypt_of_not_isNormal hn]

end Block

namespace Storage

variable [Backend S A] {a : A} {s s' : S}

/-! ## Readings, writings and accesses -/

theorem log_fetch (a : A) (s : S) :
    ((fetch a).run s).log =
      if Backend.inRange s a then [.physicalRead (Backend.location S a)] else [] := by
  rw [run_fetch]
  split <;> rfl

theorem log_read (size : Nat) (a : A) (s : S) :
    ((read size a).run s).log =
      if Backend.inRange s a then [.physicalRead (Backend.location S a)] else [] := by
  rw [run_read]
  exact log_fetch a s

theorem log_store (a : A) (p : PackedBucket) (s : S) :
    ((store a p).run s).log =
      if ((store a p).run s).result.isOk then [.physicalWrite (Backend.location S a)] else [] := by
  rw [run_store]
  split <;> rfl

theorem log_write (a : A) (bucket : Bucket size) (s : S) :
    ((write a bucket).run s).log =
      if ((write a bucket).run s).result.isOk then [.physicalWrite (Backend.location S a)]
      else [] := by
  rw [run_write (Bucket.pack_eq_ok bucket)]
  split
  · split <;> rfl
  · rfl

section engine

variable [CryptoEngine E]

theorem log_readPlain (size : Nat) (a : A) (s : S) (e : E) :
    ((readPlain size a).run (s, e)).log =
      if Backend.inRange s a then [.physicalRead (Backend.location S a)] else [] := by
  rw [← log_read size, readPlain, Op.run_bind, Op.run_onFst]
  rcases (read size a).run s with ⟨err | stored, s', l⟩
  · rfl
  · have hquiet : Op.Reports (fun _ => False) (Op.onSnd (Op.within stored
        (Op.forEach Block.decrypt)) : Op (S × E) (Bucket size)) :=
      .onSnd (.within (.forEach Block.reports_decrypt) stored)
    simp only
    rw [hquiet.log_eq_nil, List.append_nil]

theorem log_writePlain (a : A) (bucket : Bucket size) (s : S) (e : E) :
    ((writePlain a bucket).run (s, e)).log =
      if ((writePlain a bucket).run (s, e)).result.isOk then [.physicalWrite (Backend.location S a)]
      else [] := by
  have hquiet : ((Op.forEach Block.encrypt).run (bucket, e)).log = [] :=
    (Op.Reports.forEach Block.reports_encrypt).log_eq_nil (bucket, e)
  rcases hseal : (Op.forEach Block.encrypt).run (bucket, e) with ⟨err | u, ⟨sealed, e₁⟩, l⟩
  · rw [hseal] at hquiet
    rw [run_writePlain_of_encrypt_error hseal]
    exact hquiet
  · rw [hseal] at hquiet
    obtain rfl : l = [] := hquiet
    rw [run_writePlain_of_encrypt_ok hseal]
    exact log_write a sealed s

theorem log_access (a : A) (change : Bucket size → β × Bucket size) (s : S) (e : E) :
    ((access a change).run (s, e)).log =
      (if Backend.inRange s a then [.physicalRead (Backend.location S a)] else []) ++
        if ((access a change).run (s, e)).result.isOk then [.physicalWrite (Backend.location S a)]
        else [] := by
  have hkeep := state_readPlain size a s e
  rw [← log_readPlain size a s e]
  rcases hplain : (readPlain size a).run (s, e) with ⟨err | plain, ⟨s₁, e₁⟩, l⟩
  · rw [access, Op.run_bind, hplain]
    exact (List.append_nil l).symm
  · rw [hplain] at hkeep
    obtain rfl : s₁ = s := hkeep
    have hwrite := log_writePlain a (change plain).2 s₁ e₁
    rw [run_access_of_readPlain hplain]
    simp only [hwrite, Except.isOk_map]

/-- Only an address that the backend has is accessed. -/
theorem inRange_of_access {change : Bucket size → β × Bucket size} {e : E} {r : β}
    (h : ((access a change).run (s, e)).result = .ok r) : Backend.inRange s a := by
  rcases hrun : (access a change).run (s, e) with ⟨r', ⟨s', e'⟩, l⟩
  rw [hrun] at h
  rcases access_cases hrun with ⟨err, rfl, -⟩ | ⟨plain, e₁, r₂, l₁, l₂, hplain, -, -⟩
  · exact absurd h (by simp)
  · obtain ⟨bucket, l₃, hread⟩ := read_of_readPlain hplain
    exact (slot_of_read hread).1

end engine

/-! ## Calls -/

/-- What is asked of a backend, apart from what is to be put there and how it is
    changed. -/
inductive Request (A X : Type) where
  | put (a : A)
  | get (a : A)
  | access (a : A)
  | upkeep (x : X)

def BackendCall.request : BackendCall A X → Request A X
  | command (.deposit a _) => .put a
  | command (.fetch a) | command (.read _ a) => .get a
  | command (.upkeep x) => .upkeep x
  | access _ a _ => .access a

/-- What shows of a request to the backend `s`, if it is granted or if it is not. -/
def Request.shown (s : S) (granted : Bool) : Request A X → List Event
  | put a => if granted then [.physicalWrite (Backend.location S a)] else []
  | get a => if Backend.inRange s a then [.physicalRead (Backend.location S a)] else []
  | access a =>
    (if Backend.inRange s a then [.physicalRead (Backend.location S a)] else []) ++
      if granted then [.physicalWrite (Backend.location S a)] else []
  | upkeep _ => []

theorem Request.seen_shown (q : Request A X) (s : S) (granted : Bool) :
    Event.seen (q.shown s granted) = q.shown s granted := by
  cases q with
  | put a =>
    rw [shown]
    split <;> rfl
  | get a =>
    rw [shown]
    split <;> rfl
  | access a =>
    rw [shown]
    split <;> split <;> rfl
  | upkeep x => rfl

theorem Request.shown_congr (h : ∀ a, Backend.inRange s a = Backend.inRange s' a)
    (q : Request A X) (granted : Bool) : q.shown s granted = q.shown s' granted := by
  cases q with
  | put a => rfl
  | get a => rw [shown, shown, h]
  | access a => rw [shown, shown, h]
  | upkeep x => rfl

/-- Upkeep shows no bucket being touched. -/
class Upkeep.Unseen (S : Type) (A X : outParam Type) [Backend S A] [Upkeep S A X] : Prop where
  reports_op (x : X) : Op.Reports (·.access? = none) (Upkeep.op x : Op S Unit)

variable [Upkeep S A X] [Upkeep.Unseen S A X]

/-- What shows of a call is told by its request and by whether it succeeds. -/
theorem BackendCall.seen_op (c : BackendCall A X) (s : S) :
    Event.seen (c.op.run s).log = c.request.shown s (c.op.run s).result.isOk := by
  rw [← Request.seen_shown]
  cases c with
  | command c =>
    cases c with
    | deposit a d =>
      cases d with
      | store p => exact congrArg Event.seen (log_store a p s)
      | write bucket => exact congrArg Event.seen (log_write a bucket s)
    | fetch a =>
      rw [op, Command.op, Op.run_discard]
      exact congrArg Event.seen (log_fetch a s)
    | read size a =>
      rw [op, Command.op, Op.run_discard]
      exact congrArg Event.seen (log_read size a s)
    | upkeep x =>
      refine List.filter_eq_nil_iff.2 fun event hevent => ?_
      rw [Upkeep.Unseen.reports_op x s event hevent]
      exact Bool.false_ne_true
  | @access size E β _ e a change =>
    rw [run_access]
    simp only [log_access, Except.isOk_map]
    rfl

/-- A call that changes what is kept at an address shows a writing there, unless it is
    upkeep that empties the address. -/
theorem BackendCall.slot_op (c : BackendCall A X) (s : S) (a : A)
    (hslot : Backend.slot (c.op.run s).state a ≠ Backend.slot s a) :
    .physicalWrite (Backend.location S a) ∈ (c.op.run s).log ∨
      ∃ x, c = .command (.upkeep x) ∧ Upkeep.empties S x a := by
  rcases c.op_cases s with hs | ⟨b, p, hputs, -, hok, hs⟩ | ⟨x, rfl⟩
  · rw [hs] at hslot
    exact absurd rfl hslot
  · left
    obtain rfl : a = b := by
      by_contra hne
      rw [hs, Backend.slot_put_of_ne hne] at hslot
      exact hslot rfl
    have hseen := c.seen_op s
    rw [hok] at hseen
    have hshown : .physicalWrite (Backend.location S a) ∈ c.request.shown s true := by
      cases hputs with
      | stored | written => exact List.mem_singleton_self _
      | accessed => exact List.mem_append_right _ (List.mem_singleton_self _)
    rw [show true = (Except.ok () : Except StoreError Unit).isOk from rfl, ← hseen] at hshown
    exact List.mem_of_mem_filter hshown
  · right
    refine ⟨x, rfl, ?_⟩
    by_contra hempties
    refine hslot ((Upkeep.slot_op (S := S)).trans ?_)
    rw [if_neg hempties]

/-! ## Sessions -/

theorem slot_session (calls : List (BackendCall A X)) (s : S) (a : A)
    (hslot : Backend.slot (session calls s).state a ≠ Backend.slot s a) :
    .physicalWrite (Backend.location S a) ∈ (session calls s).log ∨
      ∃ x, .command (.upkeep x) ∈ calls ∧ Upkeep.empties S x a := by
  induction calls generalizing s with
  | nil => exact absurd rfl hslot
  | cons c calls ih =>
    by_cases hfirst : Backend.slot (c.op.run s).state a = Backend.slot s a
    · rcases ih (c.op.run s).state (by rwa [hfirst]) with hwrite | ⟨x, hx, hempties⟩
      · exact .inl (List.mem_append_right _ hwrite)
      · exact .inr ⟨x, List.mem_cons_of_mem c hx, hempties⟩
    · rcases c.slot_op s a hfirst with hwrite | ⟨x, rfl, hempties⟩
      · exact .inl (List.mem_append_left _ hwrite)
      · exact .inr ⟨x, List.mem_cons_self, hempties⟩

/-- Sessions with the same requests and outcomes show the same. -/
theorem seen_session_eq {calls calls' : List (BackendCall A X)}
    (hin : ∀ a, Backend.inRange s a = Backend.inRange s' a)
    (hrequests : calls.map BackendCall.request = calls'.map BackendCall.request)
    (hanswers : (session calls s).answers.map Except.isOk =
      (session calls' s').answers.map Except.isOk) :
    Event.seen (session calls s).log = Event.seen (session calls' s').log := by
  induction calls generalizing calls' s s' with
  | nil =>
    obtain rfl := List.map_eq_nil_iff.1 hrequests.symm
    rfl
  | cons c calls ih =>
    cases calls' with
    | nil => exact absurd hrequests (by simp)
    | cons c' calls' =>
      obtain ⟨hrequest, hrequests⟩ := List.cons_eq_cons.1 hrequests
      obtain ⟨hanswer, hanswers⟩ := List.cons_eq_cons.1 hanswers
      have hrest : Event.seen (session calls (c.op.run s).state).log =
          Event.seen (session calls' (c'.op.run s').state).log := by
        refine ih (fun a => ?_) hrequests hanswers
        rw [c.inRange_op, c'.inRange_op, hin]
      rw [session, session, Event.seen_append, Event.seen_append, hrest, c.seen_op, c'.seen_op,
        hrequest, hanswer, Request.shown_congr hin]

end Storage

/-! ## The two backends -/

namespace TreeStorage

theorem reports_dump (size : Nat) : Op.Reports (·.access? = none) (dump size) := by
  unfold dump
  refine .bind (.silent fun _ => rfl) fun t => .bind (.report rfl) fun _ => .listMapM ?_ _
  rintro ⟨tag, p⟩
  unfold listNode
  refine .bind (.bind (.report rfl) fun _ => ?_) fun _ => .silent fun _ => rfl
  refine .bind (.silent fun _ => rfl) fun bucket => .bind ?_ fun _ => .silent fun _ => rfl
  refine .listForM ?_ _
  rintro ⟨id, kind⟩
  exact .report rfl

instance : Storage.Upkeep.Unseen TreeStorage TreeTag TreeUpkeep where
  reports_op
    | .dump size => .bind (reports_dump size) fun _ => .silent fun _ => rfl

end TreeStorage

instance : Storage.Upkeep.Unseen SqrtStorage SqrtAddress SqrtUpkeep where
  reports_op
    | .clearShelter => .bind (.silent fun _ => rfl) fun _ =>
        .bind (.report rfl) fun _ => .silent fun _ => rfl

namespace Storage

/-- **What shows of an access is told by its address and its outcome.**  An access
    outside the backend shows nothing, one that fails shows a reading, and one that
    succeeds a reading and then a writing of its address; a writing shows if it
    succeeds, and a reading if its address is in range.  In a session nothing is changed
    without a writing that shows, but for what upkeep empties, and sessions with the
    same requests and outcomes show the same. -/
theorem trace_of_outcome (S : Type) {A X : Type} [Backend S A] [Upkeep S A X]
    [Upkeep.Unseen S A X] :
    (∀ {size : Nat} {E β : Type} [CryptoEngine E] (a : A)
      (change : Bucket size → β × Bucket size) (s : S) (e : E),
      let r := (access a change).run (s, e)
      (¬Backend.inRange s a → r.log = []) ∧
      (∀ err, Backend.inRange s a → r.result = .error err →
        r.log = [.physicalRead (Backend.location S a)]) ∧
      ∀ b, r.result = .ok b → Backend.inRange s a ∧
        r.log = [.physicalRead (Backend.location S a), .physicalWrite (Backend.location S a)]) ∧
    (∀ {size : Nat} (a : A) (bucket : Bucket size) (s : S),
      let r := (write a bucket).run s
      (r.result = .ok () → r.log = [.physicalWrite (Backend.location S a)]) ∧
      ∀ err, r.result = .error err → r.log = []) ∧
    (∀ (size : Nat) (a : A) (s : S),
      let r := (read size a).run s
      (Backend.inRange s a → r.log = [.physicalRead (Backend.location S a)]) ∧
      (¬Backend.inRange s a → r.log = [])) ∧
    (∀ (calls : List (BackendCall A X)) (s : S) (a : A),
      Backend.slot (session calls s).state a ≠ Backend.slot s a →
      .physicalWrite (Backend.location S a) ∈ (session calls s).log ∨
        ∃ x, .command (.upkeep x) ∈ calls ∧ Upkeep.empties S x a) ∧
    ∀ (calls calls' : List (BackendCall A X)) (s s' : S),
      (∀ a, Backend.inRange s a = Backend.inRange s' a) →
      calls.map BackendCall.request = calls'.map BackendCall.request →
      (session calls s).answers.map Except.isOk = (session calls' s').answers.map Except.isOk →
      Event.seen (session calls s).log = Event.seen (session calls' s').log := by
  refine ⟨?_, ?_, ?_, slot_session, fun calls calls' s s' => seen_session_eq⟩
  · intro size E β _ a change s e r
    have hlog : r.log = _ := log_access a change s e
    refine ⟨fun hin => ?_, fun err hin herr => ?_, fun b hb => ?_⟩
    · have herr : r.result.isOk = false := by
        rcases hr : r.result with err | b
        · rfl
        · exact absurd (inRange_of_access hr) hin
      rw [hlog, if_neg hin, herr]
      rfl
    · rw [hlog, if_pos hin, herr]
      rfl
    · have hin := inRange_of_access hb
      rw [hlog, if_pos hin, hb]
      exact ⟨hin, rfl⟩
  · intro size a bucket s r
    have hlog : r.log = _ := log_write a bucket s
    constructor
    · intro hok
      rw [hlog, hok]
      rfl
    · intro err herr
      rw [hlog, herr]
      rfl
  · intro size a s r
    have hlog : r.log = _ := log_read size a s
    constructor
    · intro hin
      rw [hlog, if_pos hin]
    · intro hin
      rw [hlog, if_neg hin]

/-- An access to a bucket of one dummy in a tree; one to an empty slot of a flat backend
    and one beyond its slots; and two buckets stored in the same slot. -/
theorem trace_of_outcome_two_backends :
    let e : AesGcmEngine := ⟨⟨Vector.replicate keySize 0⟩, ⟨fun _ => 0, none, 0⟩⟩
    let keep : Bucket 1 → Nat × Bucket 1 := fun bucket => (bucket.length, bucket)
    let a : SqrtAddress := ⟨.mainMemory, 0⟩
    let s : SqrtStorage := ⟨⟨0, 1, 1, "flat", .flat⟩, 1, #[none], #[none], #[none]⟩
    let store (p : PackedBucket) : BackendCall SqrtAddress SqrtUpkeep :=
      .command (.deposit a (.store p))
    (∃ t : TreeStorage, ((access (⟨0, 0⟩ : TreeTag) keep).run (t, e)).result = .ok 1 ∧
      ((access (⟨0, 0⟩ : TreeTag) keep).run (t, e)).log =
        [.physicalRead (.node ⟨0, 0⟩), .physicalWrite (.node ⟨0, 0⟩)]) ∧
    ((access a keep).run (s, e)).log = [.physicalRead (.slot a)] ∧
    ((access (⟨.mainMemory, 1⟩ : SqrtAddress) keep).run (s, e)).log = [] ∧
    .physicalWrite (.slot a) ∈ (session [store ⟨[0], 0⟩] s).log ∧
    Event.seen (session [store ⟨[0], 0⟩] s).log = Event.seen (session [store ⟨[1], 7⟩] s).log := by
  intro e keep a s store
  obtain ⟨haccess, -, -, hslot, hsessions⟩ := trace_of_outcome SqrtStorage
  refine ⟨?_, (haccess a keep s e).2.1 .bucketNotFound rfl rfl,
    (haccess ⟨.mainMemory, 1⟩ keep s e).1 (by decide), ?_, ?_⟩
  · obtain ⟨t, hsize, hin, hplain⟩ := exists_readPlain_one_dummy
    have hseal : (Op.forEach Block.encrypt).run ([Block.empty 1], e) =
        ⟨.ok (), ([Block.empty 1], e), []⟩ :=
      Op.run_forEach_singleton (Block.run_encrypt_of_not_isNormal (by decide) e)
    have hok : ((access (⟨0, 0⟩ : TreeTag) keep).run (t, e)).result = .ok 1 := by
      rw [run_access_of_readPlain (hplain e), run_writePlain_of_encrypt_ok hseal,
        run_write (Bucket.pack_eq_ok [Block.empty 1]), if_pos (by rw [hsize]; rfl), if_pos hin]
      rfl
    exact ⟨t, hok, (((trace_of_outcome TreeStorage).1 _ keep t e).2.2 1 hok).2⟩
  · rcases hslot [store ⟨[0], 0⟩] s a (by decide) with hwrite | ⟨x, hx, -⟩
    · exact hwrite
    · exact absurd hx (by simp [store])
  · exact hsessions _ _ s s (fun _ => rfl) rfl rfl

end Storage

end ObliviousStore
