/-
  How many addresses a backend has, and how many of them are taken.

  Level by level, the nodes of a tree are numbered without a gap and without a repetition
  (`bijOn_number`), and a tree never keeps more buckets than it has nodes, which are those
  that calls stored at (`mem_session`).  The slots of a flat backend are numbered region by
  region; each is reached from one address.  No call changes any of this
  (`capacity_of_calls`).
-/
import Mathlib.Order.Interval.Set.Nat
import ObliviousStore.Proofs.Storage.Call

namespace ObliviousStore

namespace Storage

variable {S A X : Type} [Backend S A] [Upkeep S A X] {c : BackendCall A X} {s : S} {a : A}

/-! ## What calls store -/

/-- The address that a call puts a bucket at, if it succeeds. -/
def BackendCall.target? : BackendCall A X → Option A
  | command (.deposit a _) | access _ a _ => some a
  | command (.fetch _) | command (.read ..) | command (.upkeep _) => none

/-- The addresses that calls stored at, given what the calls answered. -/
def stored : List (BackendCall A X) → List (Except StoreError Unit) → List A
  | c :: calls, .ok () :: answers => c.target?.toList ++ stored calls answers
  | _ :: calls, .error _ :: answers => stored calls answers
  | _, _ => []

theorem stored_cons (c : BackendCall A X) (r : Except StoreError Unit)
    (calls : List (BackendCall A X)) (answers : List (Except StoreError Unit)) :
    stored (c :: calls) (r :: answers) = stored [c] [r] ++ stored calls answers := by
  cases r with
  | error err => rfl
  | ok u => exact congrArg (· ++ stored calls answers) (List.append_nil _).symm

theorem BackendCall.exists_put (h : (c.op.run s).result = .ok ()) (ha : c.target? = some a) :
    ∃ p, Backend.inRange s a ∧ (c.op.run s).state = Backend.put s a p := by
  cases c with
  | command c =>
    cases c with
    | deposit b d =>
      obtain rfl : b = a := Option.some.inj ha
      rcases d.op_cases b s with ⟨-, err, l, hrun⟩ | ⟨p, l, -, -, hin, hrun⟩
      · rw [op, Command.op, hrun] at h
        exact absurd h (by simp)
      · exact ⟨p, hin, congrArg Outcome.state hrun⟩
    | fetch | read | upkeep => exact absurd ha (by simp [target?])
  | @access size E β _ e b change =>
    obtain rfl : b = a := Option.some.inj ha
    rw [run_access] at h ⊢
    rcases hrun : (Storage.access b change).run (s, e) with ⟨r, ⟨s', e'⟩, l⟩
    rw [hrun] at h
    rcases access_cases hrun with ⟨err, rfl, -⟩ | ⟨plain, e₁, r₂, l₁, l₂, -, hwrite, rfl⟩
    · exact absurd h (by simp [Except.map])
    · rcases writePlain_cases hwrite with ⟨err, rfl, -⟩ | ⟨sealed, p, l', -, -, -, -, hin, hs⟩
      · exact absurd h (by simp [Except.map])
      · exact ⟨p, hin, hs⟩

/-- A call that puts nothing anywhere changes nothing, or it is upkeep. -/
theorem BackendCall.state_of_target?_eq_none (h : c.target? = none) (s : S) :
    (c.op.run s).state = s ∨ ∃ x, c = .command (.upkeep x) := by
  rcases c.op_cases s with hs | ⟨a, p, hputs, -, -, -⟩ | hx
  · exact .inl hs
  · cases hputs <;> exact absurd h (by simp [target?])
  · exact .inr hx

end Storage

open Storage

/-! ## Trees -/

namespace TreeStorage

/-- The number of a node among all nodes, level by level and from the left. -/
def number (tag : TreeTag) : Nat := 2 ^ tag.level.toNat - 1 + tag.node.toNat

theorem width_eq (level : Nat) : width level = 2 ^ level := Nat.one_shiftLeft level

theorem number_add_one (tag : TreeTag) : number tag + 1 = 2 ^ tag.level.toNat + tag.node.toNat := by
  have := Nat.one_le_two_pow (n := tag.level.toNat)
  rw [number]
  omega

theorem log2_number {tag : TreeTag} (h : tag.node.toNat < 2 ^ tag.level.toNat) :
    (number tag + 1).log2 = tag.level.toNat := by
  rw [Nat.log2_eq_iff (Nat.add_one_ne_zero _), number_add_one, pow_succ]
  omega

section tree

variable {t : TreeStorage} {tag : TreeTag}

theorem inRange_iff : Backend.inRange t tag ↔
    tag.level.toNat ≤ t.height ∧ tag.node.toNat < 2 ^ tag.level.toNat := by
  rw [← width_eq]
  simp only [Backend.inRange, hasNode, Bool.and_eq_true, decide_eq_true_eq]

theorem number_injOn : Set.InjOn number {tag | Backend.inRange t tag} := by
  rintro ⟨level, node⟩ htag ⟨level', node'⟩ htag' heq
  have hlog := log2_number (inRange_iff.1 htag).2
  have hlog' := log2_number (inRange_iff.1 htag').2
  have hsum := number_add_one ⟨level, node⟩
  have hsum' := number_add_one ⟨level', node'⟩
  rw [heq] at hlog hsum
  have hlevel : level = level' := UInt32.toNat_inj.1 (hlog.symm.trans hlog')
  subst hlevel
  have hnode : node = node' := UInt32.toNat_inj.1 (Nat.add_left_cancel (hsum.symm.trans hsum'))
  rw [hnode]

/-- Numbers count the nodes of a tree. -/
theorem bijOn_number (h : t.height ≤ maxTreeHeight) :
    Set.BijOn number {tag | Backend.inRange t tag} (Set.Iio (2 ^ (t.height + 1) - 1)) := by
  refine ⟨fun tag htag => ?_, number_injOn, fun n hn => ?_⟩
  · obtain ⟨hlevel, hnode⟩ := inRange_iff.1 htag
    have hpow : 2 ^ (tag.level.toNat + 1) ≤ 2 ^ (t.height + 1) :=
      Nat.pow_le_pow_right two_pos (by omega)
    have hnumber := number_add_one tag
    rw [pow_succ] at hpow
    rw [Set.mem_Iio]
    omega
  · rw [Set.mem_Iio] at hn
    obtain ⟨hlow, hhigh⟩ := (Nat.log2_eq_iff (Nat.add_one_ne_zero n)).1 rfl
    have hlevel : (n + 1).log2 ≤ t.height :=
      Nat.lt_succ_iff.1 ((Nat.log2_lt (Nat.add_one_ne_zero n)).2 (by omega))
    have hheight : (n + 1).log2 ≤ 31 := hlevel.trans h
    have hpow : 2 ^ (n + 1).log2 ≤ 2 ^ 31 := Nat.pow_le_pow_right two_pos hheight
    rw [pow_succ] at hhigh
    have hlevelNat : (UInt32.ofNat (n + 1).log2).toNat = (n + 1).log2 :=
      UInt32.toNat_ofNat_of_lt' (show _ < 2 ^ 32 by omega)
    have hnodeNat : (UInt32.ofNat (n + 1 - 2 ^ (n + 1).log2)).toNat = n + 1 - 2 ^ (n + 1).log2 :=
      UInt32.toNat_ofNat_of_lt' (show _ < 2 ^ 32 by omega)
    refine ⟨⟨.ofNat (n + 1).log2, .ofNat (n + 1 - 2 ^ (n + 1).log2)⟩, inRange_iff.2 ?_, ?_⟩
    · rw [hlevelNat, hnodeNat]
      omega
    · rw [number, hlevelNat, hnodeNat]
      omega

/-- The width of a level in words of 64 bits. -/
theorem toNat_shiftLeft_level {level : UInt32} (h : level.toNat < 64) :
    ((1 : UInt64) <<< level.toUInt64).toNat = 2 ^ level.toNat := by
  rw [UInt64.toNat_shiftLeft, UInt32.toNat_toUInt64, Nat.mod_eq_of_lt h, UInt64.toNat_one,
    Nat.one_shiftLeft, Nat.mod_eq_of_lt (Nat.pow_lt_pow_right (by decide) h)]

/-! ### Calls to a tree -/

variable (c : Storage.BackendCall TreeTag TreeUpkeep)
  (calls : List (Storage.BackendCall TreeTag TreeUpkeep))

theorem state_upkeep (x : TreeUpkeep) (t : TreeStorage) :
    ((Storage.BackendCall.command (.upkeep x) :
      Storage.BackendCall TreeTag TreeUpkeep).op.run t).state = t := by
  cases x with
  | dump size => exact (congrArg Outcome.state (Op.run_discard _ t)).trans (state_dump size t)

/-- All that a call can do to a tree: nothing, or to put one bucket at the node that it
    stores at. -/
theorem op_cases (t : TreeStorage) :
    ((c.op.run t).state = t ∧ stored [c] [(c.op.run t).result] = []) ∨
    ∃ a p, Backend.inRange t a ∧ (c.op.run t).state = Backend.put t a p ∧
      stored [c] [(c.op.run t).result] = [a] := by
  rcases hr : (c.op.run t).result with err | u
  · exact .inl ⟨Storage.BackendCall.state_of_error hr, rfl⟩
  · rcases ha : c.target? with _ | a
    · refine .inl ⟨?_, by simp only [stored, ha, Option.toList_none, List.append_nil]⟩
      rcases c.state_of_target?_eq_none ha t with hs | ⟨x, rfl⟩
      · exact hs
      · exact state_upkeep x t
    · obtain ⟨p, hin, hs⟩ := Storage.BackendCall.exists_put hr ha
      exact .inr ⟨a, p, hin, hs, by simp only [stored, ha, Option.toList_some, List.append_nil]⟩

theorem mem_put (t : TreeStorage) (a tag : TreeTag) (p : PackedBucket) :
    tag ∈ (Backend.put t a p).buckets ↔ tag ∈ t.buckets ∨ tag = a := by
  have hmem : tag ∈ t.buckets.insert a p ↔ _ := Std.ExtTreeMap.mem_insert
  rw [Std.LawfulEqCmp.compare_eq_iff_eq, or_comm, eq_comm] at hmem
  exact hmem

theorem height_op (t : TreeStorage) : (c.op.run t).state.height = t.height := by
  rcases op_cases c t with ⟨hs, -⟩ | ⟨a, p, -, hs, -⟩
  · rw [hs]
  · rw [hs]
    rfl

theorem inRange_of_mem_op (ht : ∀ tag ∈ t.buckets, Backend.inRange t tag) :
    ∀ tag ∈ (c.op.run t).state.buckets, Backend.inRange (c.op.run t).state tag := by
  intro tag hmem
  rw [c.inRange_op]
  rcases op_cases c t with ⟨hs, -⟩ | ⟨a, p, hin, hs, -⟩
  · rw [hs] at hmem
    exact ht tag hmem
  · rw [hs, mem_put] at hmem
    rcases hmem with hmem | rfl
    · exact ht tag hmem
    · exact hin

theorem mem_op : tag ∈ (c.op.run t).state.buckets ↔
    tag ∈ t.buckets ∨ tag ∈ stored [c] [(c.op.run t).result] := by
  rcases op_cases c t with ⟨hs, hstored⟩ | ⟨a, p, -, hs, hstored⟩
  · rw [hs, hstored, or_iff_left List.not_mem_nil]
  · rw [hs, hstored, mem_put, List.mem_singleton]

theorem height_session (t : TreeStorage) : (session calls t).state.height = t.height := by
  induction calls generalizing t with
  | nil => rfl
  | cons c calls ih => rw [state_session_cons, ih, height_op]

theorem inRange_of_mem_session (ht : ∀ tag ∈ t.buckets, Backend.inRange t tag) :
    ∀ tag ∈ (session calls t).state.buckets, Backend.inRange (session calls t).state tag := by
  induction calls generalizing t with
  | nil => exact ht
  | cons c calls ih => exact ih (inRange_of_mem_op c ht)

/-- A tree keeps a bucket at the nodes that calls stored at, and at those it had one
    before. -/
theorem mem_session : tag ∈ (session calls t).state.buckets ↔
    tag ∈ t.buckets ∨ tag ∈ stored calls (session calls t).answers := by
  induction calls generalizing t with
  | nil => exact (or_iff_left List.not_mem_nil).symm
  | cons c calls ih =>
    rw [state_session_cons, ih, mem_op, or_assoc, ← List.mem_append, ← stored_cons]
    rfl

theorem occupied_eq_card (t : TreeStorage) : t.occupied = t.buckets.keys.toFinset.card := by
  rw [List.toFinset_card_of_nodup Std.ExtTreeMap.nodup_keys, Std.ExtTreeMap.length_keys, occupied]

/-- There are no more buckets than numbers for their nodes. -/
theorem occupied_le (hheight : t.height ≤ maxTreeHeight)
    (ht : ∀ tag ∈ t.buckets, Backend.inRange t tag) : t.occupied ≤ 2 ^ (t.height + 1) - 1 := by
  have hmem (tag : TreeTag) (h : tag ∈ t.buckets.keys.toFinset) : Backend.inRange t tag :=
    ht tag (Std.ExtTreeMap.mem_keys.1 (List.mem_toFinset.1 h))
  rw [occupied_eq_card, ← Finset.card_range (2 ^ (t.height + 1) - 1)]
  refine Finset.card_le_card_of_injOn number (fun tag htag => ?_) fun tag htag tag' htag' => ?_
  · rw [Finset.coe_range]
    exact (bijOn_number hheight).mapsTo (hmem tag htag)
  · exact number_injOn (hmem tag htag) (hmem tag' htag')

end tree

/-- How many nodes a tree of some height has, and how many of them hold a bucket after
    buckets were stored at some. -/
structure Measured (height : Nat) (tags : List TreeTag) (t : TreeStorage) : Prop where
  height_eq : t.height = height
  capacity_eq : t.metadata.capacity = 2 ^ (height + 1) - 1
  bijOn : Set.BijOn number {tag | Backend.inRange t tag} (Set.Iio t.metadata.capacity)
  level_lt : ∀ tag : TreeTag, tag.level.toNat ≤ t.height → tag.level.toNat < 64
  inRange_iff : ∀ tag : TreeTag, Backend.inRange t tag ↔
    tag.level.toNat ≤ t.height ∧ tag.node.toUInt64 < (1 : UInt64) <<< tag.level.toUInt64
  inRange_of_mem : ∀ tag ∈ t.buckets, Backend.inRange t tag
  occupied_eq : t.occupied = tags.toFinset.card
  occupied_le : t.occupied ≤ t.metadata.capacity

theorem measured_session {t : TreeStorage} {height : Nat} (hheight : t.height = height)
    (hcapacity : t.metadata.capacity = nodeCount height) (hempty : t.buckets = ∅)
    (hmax : height ≤ maxTreeHeight) (calls : List (Storage.BackendCall TreeTag TreeUpkeep)) :
    Measured height (stored calls (session calls t).answers) (session calls t).state := by
  obtain rfl := hheight
  have hnone (tag : TreeTag) : tag ∉ t.buckets := by
    rw [hempty]
    exact Std.ExtTreeMap.not_mem_empty
  have hs : (session calls t).state.height = t.height := height_session calls t
  have hle : (session calls t).state.height ≤ maxTreeHeight := hs.le.trans hmax
  have hmem := inRange_of_mem_session (t := t) calls fun tag h => absurd h (hnone tag)
  have hcount : (session calls t).state.metadata.capacity =
      2 ^ ((session calls t).state.height + 1) - 1 := by
    rw [hs, ← width_eq]
    exact (congrArg Metadata.capacity (metadata_session calls t)).trans hcapacity
  refine ⟨hs, by rw [hcount, hs], by rw [hcount]; exact bijOn_number hle, fun tag hlevel => ?_,
    fun tag => ?_, hmem, ?_, by rw [hcount]; exact occupied_le hle hmem⟩
  · exact (hlevel.trans hle).trans_lt (by decide)
  · rw [inRange_iff]
    refine and_congr_right fun hlevel => ?_
    rw [UInt64.lt_iff_toNat_lt, UInt32.toNat_toUInt64,
      toNat_shiftLeft_level ((hlevel.trans hle).trans_lt (by decide))]
  · rw [occupied_eq_card]
    congr 1
    ext tag
    rw [List.mem_toFinset, List.mem_toFinset, Std.ExtTreeMap.mem_keys, mem_session]
    exact or_iff_right (hnone tag)

end TreeStorage

/-! ## Flat backends -/

namespace SqrtStorage

/-- How many slots come before those of a region. -/
def before (s : SqrtStorage) : Region → Nat
  | .mainMemory => 0
  | .dummy => s.mainMemory.size
  | .shelter => s.mainMemory.size + s.dummies.size

/-- The number of a slot among all slots, region by region. -/
def number (s : SqrtStorage) (a : SqrtAddress) : Nat := s.before a.region + a.offset.toNat

/-- A bucket that is stored at the address is kept in slot `i` of the region. -/
def Reaches (s : SqrtStorage) (a : SqrtAddress) (region : Region) (i : Nat) : Prop :=
  ∀ p, (((store a p).run s).state.slots region)[i]? = some (some p)

variable {s : SqrtStorage} {a : SqrtAddress} {region : Region} {i : Nat}

theorem inRange_iff : Backend.inRange s a ↔ a.offset.toNat < (s.slots a.region).size := by
  simp only [Backend.inRange, decide_eq_true_eq]

theorem slots_store (a : SqrtAddress) (p : PackedBucket) (s : SqrtStorage) (region : Region) :
    ((store a p).run s).state.slots region =
      if Backend.inRange s a ∧ region = a.region then
        (s.slots region).setIfInBounds a.offset.toNat (some p)
      else s.slots region := by
  rw [run_store]
  by_cases hin : Backend.inRange s a
  · simp only [hin, if_true, true_and]
    exact slots_fillSlot s a p region
  · simp only [hin, Bool.false_eq_true, if_false, false_and]

theorem reaches_iff : s.Reaches a region i ↔
    a.region = region ∧ a.offset.toNat = i ∧ i < (s.slots region).size := by
  constructor
  · intro h
    -- what is in a slot that is not written is no answer to every bucket
    have hwritten : ¬∀ p, (s.slots region)[i]? = some (some p) := fun hfixed =>
      absurd ((hfixed ⟨[], 0⟩).symm.trans (hfixed ⟨[], 1⟩)) (by decide)
    by_cases ha : Backend.inRange s a ∧ region = a.region
    · obtain ⟨hin, rfl⟩ := ha
      by_cases hi : a.offset.toNat = i
      · exact ⟨rfl, hi, hi ▸ inRange_iff.1 hin⟩
      · refine absurd (fun p => ?_) hwritten
        have hp := h p
        rwa [slots_store, if_pos ⟨hin, rfl⟩, Array.getElem?_setIfInBounds_ne hi] at hp
    · refine absurd (fun p => ?_) hwritten
      have hp := h p
      rwa [slots_store, if_neg ha] at hp
  · rintro ⟨rfl, rfl, hi⟩ p
    rw [slots_store, if_pos ⟨inRange_iff.2 hi, rfl⟩, Array.getElem?_setIfInBounds_self_of_lt hi]

theorem existsUnique_reaches (hsize : (s.slots region).size < UInt32.size)
    (hi : i < (s.slots region).size) : ∃! a, s.Reaches a region i := by
  have hoffset : (UInt32.ofNat i).toNat = i := UInt32.toNat_ofNat_of_lt' (hi.trans hsize)
  refine ⟨⟨region, .ofNat i⟩, reaches_iff.2 ⟨rfl, hoffset, hi⟩, ?_⟩
  rintro ⟨region', offset⟩ ha
  obtain ⟨rfl, rfl, -⟩ := reaches_iff.1 ha
  rw [UInt32.ofNat_toNat]

/-- Numbers count the slots of a flat backend. -/
theorem bijOn_number (hsize : ∀ region, (s.slots region).size < UInt32.size) :
    Set.BijOn s.number {a | Backend.inRange s a} (Set.Iio s.totalLength) := by
  refine ⟨fun a ha => ?_, ?_, fun n hn => ?_⟩
  · have hoffset := inRange_iff.1 ha
    rw [Set.mem_Iio, number, totalLength]
    cases hregion : a.region <;> simp only [hregion, slots, before] at hoffset ⊢ <;> omega
  · rintro ⟨region, i⟩ ha ⟨region', j⟩ hb heq
    have hi := inRange_iff.1 ha
    have hj := inRange_iff.1 hb
    obtain ⟨rfl, hij⟩ : region = region' ∧ i.toNat = j.toNat := by
      cases region <;> cases region' <;> simp only [number, before, slots] at heq hi hj <;>
        first | exact ⟨rfl, by omega⟩ | omega
    rw [UInt32.toNat_inj.1 hij]
  · obtain ⟨region, i, hi, rfl⟩ :
        ∃ region i, i < (s.slots region).size ∧ s.before region + i = n := by
      rw [Set.mem_Iio, totalLength] at hn
      by_cases hmain : n < s.mainMemory.size
      · exact ⟨.mainMemory, n, hmain, Nat.zero_add n⟩
      · by_cases hdummies : n < s.mainMemory.size + s.dummies.size
        · exact ⟨.dummy, n - s.mainMemory.size, by simp only [slots]; omega,
            by simp only [before]; omega⟩
        · exact ⟨.shelter, n - (s.mainMemory.size + s.dummies.size), by simp only [slots]; omega,
            by simp only [before]; omega⟩
    have hoffset : (UInt32.ofNat i).toNat = i := UInt32.toNat_ofNat_of_lt' (hi.trans (hsize region))
    refine ⟨⟨region, .ofNat i⟩, inRange_iff.2 ?_, ?_⟩
    · rwa [hoffset]
    · rw [number, hoffset]

theorem size_slots_op (c : Storage.BackendCall SqrtAddress SqrtUpkeep) (s : SqrtStorage)
    (region : Region) : ((c.op.run s).state.slots region).size = (s.slots region).size := by
  rcases c.op_cases s with hs | ⟨a, p, -, -, -, hs⟩ | ⟨x, rfl⟩
  · rw [hs]
  · rw [hs]
    change ((s.fillSlot a p).slots region).size = _
    rw [slots_fillSlot]
    split
    · rw [Array.size_setIfInBounds]
    · rfl
  · cases x
    change (s.withoutShelter.slots region).size = _
    cases region with
    | mainMemory | dummy => rfl
    | shelter => exact Array.size_map

theorem size_slots_session (calls : List (Storage.BackendCall SqrtAddress SqrtUpkeep))
    (s : SqrtStorage)
    (region : Region) :
    ((session calls s).state.slots region).size = (s.slots region).size := by
  induction calls generalizing s with
  | nil => rfl
  | cons c calls ih => rw [state_session_cons, ih, size_slots_op]

/-- How many slots a flat backend has, and that each of them has one address. -/
structure Measured (capacity squaredM : Nat) (s : SqrtStorage) : Prop where
  capacity_eq : s.metadata.capacity = capacity
  mainMemory_size : (s.slots .mainMemory).size = capacity
  dummies_size : (s.slots .dummy).size = squaredM
  shelter_size : (s.slots .shelter).size = squaredM
  totalLength_eq : s.totalLength = capacity + 2 * squaredM
  ncard_inRange : {a | Backend.inRange s a}.ncard = s.totalLength
  existsUnique_reaches : ∀ region i, i < (s.slots region).size → ∃! a, s.Reaches a region i

theorem measured_session {s : SqrtStorage} {capacity squaredM : Nat}
    (hcapacity : s.metadata.capacity = capacity)
    (hsize : ∀ region, (s.slots region).size = if region = .mainMemory then capacity else squaredM)
    (hc : capacity < UInt32.size) (hm : squaredM < UInt32.size)
    (calls : List (Storage.BackendCall SqrtAddress SqrtUpkeep)) :
    Measured capacity squaredM (session calls s).state := by
  have hslots (region : Region) := (size_slots_session calls s region).trans (hsize region)
  have hlt (region : Region) : ((session calls s).state.slots region).size < UInt32.size := by
    rw [hslots]
    split
    · exact hc
    · exact hm
  have hmain : (session calls s).state.mainMemory.size = capacity := hslots .mainMemory
  have hdummies : (session calls s).state.dummies.size = squaredM := hslots .dummy
  have hshelter : (session calls s).state.shelter.size = squaredM := hslots .shelter
  have hmetadata : (session calls s).state.metadata = s.metadata := metadata_session calls s
  refine ⟨by rw [hmetadata, hcapacity], hmain, hdummies, hshelter, ?_, ?_, fun region i hi => ?_⟩
  · rw [totalLength, hmain, hdummies, hshelter, two_mul, Nat.add_assoc]
  · rw [(bijOn_number hlt).ncard_eq, Set.ncard_Iio_nat]
  · exact existsUnique_reaches (hlt region) hi

end SqrtStorage

/-! ## The two backends -/

namespace Storage

theorem height_le_of_createTree {σ : Type} {u : σ} {id : UInt32} {height bucketSize : Nat}
    {hash : String} {t : TreeStorage}
    (h : ((TreeStorage.create id height bucketSize hash).run u).result = .ok t) :
    height ≤ maxTreeHeight := by
  simp only [TreeStorage.create, Op.run_bind, Op.run_report] at h
  split at h
  · exact absurd h (by simp)
  · rename_i hc
    exact Nat.le_of_not_lt fun hlt => hc (.inl hlt)

theorem lt_size_of_createSqrt {σ : Type} {u : σ} {id : UInt32}
    {capacity bucketSize squaredM : Nat} {hash : String} {t : SqrtStorage}
    (h : ((SqrtStorage.create id capacity bucketSize squaredM hash).run u).result = .ok t) :
    capacity < UInt32.size ∧ squaredM < UInt32.size := by
  simp only [SqrtStorage.create, Op.run_bind, Op.run_report] at h
  split at h
  · exact absurd h (by simp)
  · rename_i hc
    simp only [not_or, Nat.not_le] at hc
    exact hc.2.2.2

/-- **Backends are as large as they say and never overfilled.**  Whatever is called, in
    whatever order: a tree of height `h` has `2 ^ (h + 1) - 1` nodes, which are numbered
    level by level, and the buckets it keeps are at as many of them as calls stored at;
    a flat backend keeps the lengths of its regions, and each of its slots has one address. -/
theorem capacity_of_calls :
    (∀ (id : UInt32) (height bucketSize : Nat) (hash : String) (t : TreeStorage),
      ((TreeStorage.create id height bucketSize hash).run ()).result = .ok t →
      ∀ calls : List (BackendCall TreeTag TreeUpkeep),
        TreeStorage.Measured height (stored calls (session calls t).answers)
          (session calls t).state) ∧
    (∀ (id : UInt32) (capacity bucketSize squaredM : Nat) (hash : String) (s : SqrtStorage),
      ((SqrtStorage.create id capacity bucketSize squaredM hash).run ()).result = .ok s →
      ∀ calls : List (BackendCall SqrtAddress SqrtUpkeep),
        SqrtStorage.Measured capacity squaredM (session calls s).state) := by
  constructor
  · intro id height bucketSize hash t ht calls
    have hheight := height_le_of_createTree ht
    obtain ⟨rfl, -⟩ := eq_of_createTree ht
    refine TreeStorage.measured_session ?_ ?_ ?_ hheight calls <;> rfl
  · intro id capacity bucketSize squaredM hash s hs calls
    obtain ⟨hcapacity, hsquaredM⟩ := lt_size_of_createSqrt hs
    obtain ⟨rfl, -⟩ := eq_of_createSqrt hs
    refine SqrtStorage.measured_session ?_ (fun region => ?_) hcapacity hsquaredM calls
    · rfl
    · cases region <;> exact Array.size_replicate

/-- Two buckets stored at one leaf of a tree and one below its leaves; and a bucket stored
    in a shelter that is emptied. -/
theorem capacity_of_calls_two_backends :
    let store (a : TreeTag) (p : PackedBucket) : BackendCall TreeTag TreeUpkeep :=
      .command (.deposit a (.store p))
    let calls := [store ⟨1, 1⟩ ⟨[0], 0⟩, store ⟨1, 1⟩ ⟨[1], 7⟩, store ⟨2, 0⟩ ⟨[0], 0⟩]
    let sheltered : List (BackendCall SqrtAddress SqrtUpkeep) :=
      [.command (.deposit ⟨.shelter, 0⟩ (.store ⟨[0], 0⟩)), .command (.upkeep .clearShelter)]
    (∃ t, ((TreeStorage.create 0 1 1 "tree").run ()).result = .ok t ∧
      (session calls t).state.occupied = 1 ∧ (session calls t).state.metadata.capacity = 3) ∧
    ∃ s, ((SqrtStorage.create 0 2 1 1 "flat").run ()).result = .ok s ∧
      (session sheltered s).state.totalLength = 4 ∧
      ∃! a, (session sheltered s).state.Reaches a .shelter 0 := by
  intro store calls sheltered
  constructor
  · let t : TreeStorage := ⟨⟨0, TreeStorage.nodeCount 1, 1, "tree", .tree⟩, 1, ∅⟩
    have hmeasured := capacity_of_calls.1 0 1 1 "tree" t rfl calls
    exact ⟨t, rfl, hmeasured.occupied_eq, hmeasured.capacity_eq⟩
  · let s : SqrtStorage := ⟨⟨0, 2, 1, "flat", .flat⟩, 1, #[none, none], #[none], #[none]⟩
    have hmeasured := capacity_of_calls.2 0 2 1 1 "flat" s rfl sheltered
    exact ⟨s, rfl, hmeasured.totalLength_eq,
      hmeasured.existsUnique_reaches .shelter 0 (by rw [hmeasured.shelter_size]; decide)⟩

end Storage

end ObliviousStore
