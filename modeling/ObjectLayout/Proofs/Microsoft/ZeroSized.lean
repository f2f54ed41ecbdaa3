import ObjectLayout.Proofs.Microsoft.Tables

/-! Bases without data under the Microsoft rules. A class without data says so to its neighbours, which
then keep a byte or the room of a vtordisp between them, so that any two such bases are put at different
offsets. Pointers that come in later move whatever lies past a point by the same distance, and the one
base that is moved on its own ends up past all others. -/
namespace ObjectLayout.Microsoft

open LayoutM (ends_bind)

variable {f : Frame} {known : Known} {st st' start based : State} {row : List PlacedBase}

/-- Records without data tell their neighbours that they could share an address with them. -/
def FlagsZeroSized (known : Known) : Prop :=
  ∀ r layout, known.record r = .ok layout → layout.dataSize = 0 →
    layout.hasZeroSizedSubobject = true ∧ layout.leadsWithZeroSizedBase = true

section Flags

variable {s : Setting} {r : RecordId} {layout : RecordLayout} (microsoft : s.usesMicrosoftLayout = true)
include microsoft

/-- A class with a vbptr, its own or that of a base, has data. -/
theorem dataSize_pos_of_hasVbptr (depth : Nat) (laid : (s.known depth).record r = .ok layout)
    (has : layout.hasVbptr = true) : 0 < layout.dataSize := by
  induction depth generalizing r layout with
  | zero => cases laid
  | succ depth ih =>
    cases isClass : (s.tree.record r).isClass with
    | false =>
      simp [RecordLayout.hasVbptr, RecordLayout.vbptr?, plain_asClass microsoft isClass laid] at has
    | true =>
      obtain ⟨run, rfl⟩ := classRun microsoft isClass laid
      have flags := run.flags_eq
      have once := run.once.flags
      simp only [State.flags, Prod.mk.injEq] at flags once
      have takesRoom : 0 < run.laid.size ∨ run.laid.needsOwnVbptr = true := by
        rw [State.classLayout_hasVbptr, flags.2.2.2.1] at has
        cases shared : run.laid.vbptrBase with
        | none => exact .inr (by simp [State.needsOwnVbptr, has, shared])
        | some b =>
          -- The base that the vbptr is shared with is in the row, and has data itself.
          rw [once.2.2.2.2, Option.map_eq_some_iff] at shared
          obtain ⟨base, found, rfl⟩ := shared
          have brings := List.find?_some found
          simp only [bringsVbptr, Bool.and_eq_true, Bool.not_eq_true'] at brings
          have declared : base ∈ (Frame.ofRecord s r).declaration.nonVirtualBases :=
            List.mem_filter.mpr ⟨List.mem_of_find?_eq_some found, by simp [brings.1]⟩
          obtain ⟨p, member, same⟩ := run.once.bases.exists_in_row declared
          have inner := run.once.bases.laid p member
          have hasVbptr : p.layout.hasVbptr = true := by
            rw [← same, Known.has_eq inner] at brings
            exact brings.2
          obtain ⟨ends, inRow⟩ := run.once.bases.inRow
          have stop : p.layout.dataSize ≤ p.stop := Nat.le_add_left _ _
          have inside : p.stop ≤ run.laid.size := (inRow.inside p member).2.trans run.once.grows.2
          exact .inl ((ih inner hasVbptr).trans_le (stop.trans inside))
      obtain ⟨size, grows, _, closed⟩ := run.closing
      have dataSize : run.last.classLayout.dataSize = run.closed.size := run.last_eq.2.2.2.2.1
      rw [dataSize, closed]
      exact ((layPointers_size_pos run.once).value run.pointers
        (takesRoom.imp_right .inr)).trans_le grows

/-- A plain record is at least as large as its alignment, all of it data. -/
theorem plain_dataSize_pos {known : Known} (isPlain : (s.tree.record r).isClass = false)
    (laid : (RecordLayout.ofRecord s r).eval known = .ok layout) : 0 < layout.dataSize := by
  obtain ⟨run, rfl⟩ := plainRun microsoft isPlain laid
  have aligned : run.laid.alignment ≠ 0 := by
    have closing := run.closing
    unfold closeData at closing
    obtain ⟨size, rounded, _⟩ := except_bind_eq_ok.mp closing
    exact (Quantity.alignTo_eq_ok_iff.mp rounded).1
  have finished := (finish_ends run.closed).value run.finishing
  exact finished.positive ((Nat.pos_of_ne_zero aligned).trans_le run.last_eq.2.2)

/-- Having no data, a class has no pointers and so no virtual bases: its size is still zero when it is
finished. -/
theorem flagsZeroSized (depth : Nat) : FlagsZeroSized (s.known depth) := by
  intro r layout laid empty
  obtain _ | depth := depth
  · cases laid
  cases isClass : (s.tree.record r).isClass with
  | false => exact absurd empty (plain_dataSize_pos microsoft isClass laid).ne'
  | true =>
    have noVbptr : layout.hasVbptr = false := by
      by_contra has
      exact absurd empty
        (dataSize_pos_of_hasVbptr microsoft _ laid (by simpa using has)).ne'
    obtain ⟨run, rfl⟩ := classRun microsoft isClass laid
    have dataSize : run.last.classLayout.dataSize = run.closed.size := run.last_eq.2.2.2.2.1
    have placed : run.placed = run.closed := by
      have without : run.closed.hasVbptr = false :=
        run.hasVbptr_closed.trans (run.last.classLayout_hasVbptr ▸ noVbptr)
      have virtualBases := run.virtualBases
      simp only [layVirtualBases, without, Bool.not_false, if_true] at virtualBases
      exact (Except.ok.inj virtualBases).symm
    exact run.finished.zeroSized (placed ▸ dataSize ▸ empty)

end Flags

namespace Row

variable {size size' : Nat} {ends ends' : Bool}

/-- Past something without data, no base without data starts right there. -/
theorem start_lt (h : Row f size true row size' ends')
    (leads : ∀ p ∈ row, p.layout.dataSize = 0 → p.layout.leadsWithZeroSizedBase = true)
    {q : PlacedBase} (member : q ∈ row) (empty : q.layout.dataSize = 0) : size < q.offset := by
  obtain _ | @⟨_, _, _, _, p, rest, positive, offset, inRow⟩ := h
  · cases member
  have past := Quantity.le_roundUp (a := size + gap true p.layout) (Nat.pos_of_ne_zero positive)
  rw [← offset] at past
  have stop : p.stop = p.offset + p.layout.dataSize := rfl
  by_cases data : p.layout.dataSize = 0
  · have apart : gap true p.layout = 1 := by simp [gap, leads p List.mem_cons_self data]
    rcases List.mem_cons.mp member with rfl | later
    · omega
    · have := (inRow.inside q later).1
      omega
  · rcases List.mem_cons.mp member with rfl | later
    · exact absurd empty data
    · have data := Nat.pos_of_ne_zero data
      have := (inRow.inside q later).1
      omega

/-- Bases without data start one past the other, whatever is placed between them. -/
theorem zeroSized_ordered (h : Row f size ends row size' ends')
    (flags : ∀ p ∈ row, p.layout.dataSize = 0 →
      p.layout.hasZeroSizedSubobject = true ∧ p.layout.leadsWithZeroSizedBase = true) :
    row.Pairwise fun p q => p.layout.dataSize = 0 → q.layout.dataSize = 0 → p.offset < q.offset := by
  induction h with
  | nil => exact .nil
  | @cons _ _ _ _ p rest _ _ inRow ih =>
    refine .cons ?_ (ih fun q member => flags q (.tail _ member))
    intro q member empty empty'
    have stop : p.stop = p.offset := PlacedBase.stop_eq empty
    rw [(flags p List.mem_cons_self empty).1, stop] at inRow
    exact inRow.start_lt (fun q member empty => (flags q (.tail _ member) empty).2) member empty'

end Row

/-- Records without data that are placed at one offset are the same. -/
def Separated (known : Known) (offset : RecordId → Option Nat) : Prop :=
  ∀ ⦃r r' : RecordId⦄ ⦃x : Nat⦄, ZeroSized known r → ZeroSized known r' →
    offset r = some x → offset r' = some x → r = r'

/-- Moving whatever lies past a point by the same distance brings nothing together. -/
theorem shift_injective {moves : Nat → Bool} (distance : Nat)
    (upwards : ∀ x y, x ≤ y → moves x = true → moves y = true) :
    Function.Injective fun offset => if moves offset then offset + distance else offset := by
  intro x y same
  dsimp only at same
  cases first : moves x <;> cases second : moves y <;>
    simp only [first, second, if_true, Bool.false_eq_true, if_false] at same
  case false.true =>
    have moves := upwards y x (by omega) second
    simp [first] at moves
  case true.false =>
    have moves := upwards x y (by omega) first
    simp [second] at moves
  all_goals omega

theorem Separated.shifted (h : Separated known st.baseOffsets.find?) (distance : Nat)
    {moves : Nat → Bool} (upwards : ∀ x y, x ≤ y → moves x = true → moves y = true) :
    Separated known (st.shifted distance moves).baseOffsets.find? := by
  intro r r' x empty empty' found found'
  rw [State.shifted, OrderedMap.find?_mapValues, Option.map_eq_some_iff] at found found'
  obtain ⟨y, found, rfl⟩ := found
  obtain ⟨y', found', same⟩ := found'
  obtain rfl := shift_injective distance upwards same
  exact h empty empty' found found'

/-- However the bases of a class are declared, their row keeps those without data apart. -/
theorem BasesLaid.separated (h : BasesLaid f known start row based) (none : start.baseOffsets = .empty)
    (flags : FlagsZeroSized known) : Separated known based.baseOffsets.find? := by
  obtain ⟨ends, inRow⟩ := h.inRow
  have ordered := inRow.zeroSized_ordered fun p member => flags p.record p.layout (h.laid p member)
  let Apart (p q : PlacedBase) : Prop :=
    p.layout.dataSize = 0 → q.layout.dataSize = 0 → p.offset ≠ q.offset
  have symmetric : Std.Symm Apart := ⟨fun _ _ apart empty empty' => (apart empty' empty).symm⟩
  have apart : row.Pairwise Apart := ordered.imp fun lt empty empty' => (lt empty empty').ne
  rintro r r' x ⟨layout, laid, empty⟩ ⟨layout', laid', empty'⟩ found found'
  obtain ⟨p, member, rfl, rfl⟩ := h.exists_placed none found
  obtain ⟨q, member', rfl, same⟩ := h.exists_placed none found'
  cases (h.laid p member).symm.trans laid
  cases (h.laid q member').symm.trans laid'
  by_contra differ
  exact apart.forall member member' (fun same => differ (same ▸ rfl)) empty empty' same.symm

section Pointers

theorem injectVbptr_separated (h : Separated known st.baseOffsets.find?) :
    Ends (fun _ => True) (injectVbptr f st) fun st' => Separated known st'.baseOffsets.find? := by
  apply (injectVbptr_ends st).imp
  rintro st' (⟨_, rfl⟩ | ⟨start, distance, _, _, _, rfl⟩)
  · exact h
  · apply h.shifted distance
    intro x y le moves
    exact decide_eq_true ((of_decide_eq_true moves).trans le)

theorem injectVfptr_separated (h : Separated known st.baseOffsets.find?) :
    Ends (fun _ => True) (injectVfptr f st) fun st' => Separated known st'.baseOffsets.find? := by
  apply (injectVfptr_ends st).imp
  rintro st' (⟨_, rfl⟩ | ⟨distance, vbptrOffset, _, _, _, rfl⟩)
  · exact h
  · exact h.shifted distance fun _ _ _ moves => moves

variable (h : BasesLaid f known start row based) (none : start.baseOffsets = .empty)
variable (distinct : (f.declaration.nonVirtualBases.map (·.record)).Nodup)
variable (flags : FlagsZeroSized known)
variable (data : ∀ {r layout}, known.record r = .ok layout → layout.hasExtendableVfptr = true →
  0 < layout.dataSize)
include h none distinct flags data

/-- No base without data but the one that moves lies past the place where the vbptr is put. -/
theorem PutBefore.offset_le {moved base : Base} {behind : List Base} {site : Nat}
    (put : PutBefore known based.baseOffsets f.declaration.nonVirtualBases moved base behind)
    (starts : based.baseOffsets.find? base.record = some site) {r : RecordId} {x : Nat}
    (other : r ≠ moved.record) (zeroSized : ZeroSized known r)
    (at' : based.baseOffsets.find? r = some x) : x ≤ site := by
  obtain ⟨p, member, rfl, rfl⟩ := h.exists_placed none at'
  obtain ⟨base', declared, same⟩ := h.declared member
  rw [← placeIn_eq starts, ← placeIn_eq at', ← same]
  cases put with
  | last last => exact last.le base' declared
  | penultimate last zeroSizedLast second =>
    have place := declared
    rw [last.split, List.mem_append, List.mem_cons] at place
    rcases place with earlier | rfl | later
    · exact second.le base' earlier
    · exact absurd same.symm other
    -- Declared behind the last base, it is placed behind it as well, but not past it.
    · obtain ⟨q, member', sameLast⟩ := h.exists_in_row last.member
      have follows {p : PlacedBase} {base : Base} (member : p ∈ row) (same : base.record = p.record)
          (zeroSized : ZeroSized known p.record) : isLeading known base = false := by
        obtain ⟨layout, laid, empty⟩ := zeroSized
        rw [isLeading, same, Known.has_eq laid]
        by_contra leads
        exact absurd empty (data laid (by simpa using leads)).ne'
      rw [← sameLast] at zeroSizedLast
      have atLast := h.find? distinct none member'
      have stop := stop_le_of_after h distinct last.split later member' member sameLast.symm same
        (follows member' sameLast.symm zeroSizedLast) (follows member same zeroSized)
      have le : q.offset ≤ p.offset := (Nat.le_add_right _ _).trans stop
      have ge := last.le base' declared
      rw [same, ← sameLast, placeIn_eq at', placeIn_eq atLast] at ge
      have together := h.separated none flags zeroSized zeroSizedLast at' (ge.antisymm le ▸ atLast)
      exact absurd (together.trans sameLast) other

/-- The base that moves behind the vbptr ends up past all others without data. -/
theorem layVbptrAsBase_separated : Ends (fun _ => True) ((layVbptrAsBase f based).eval known)
    fun st' => Separated known st'.baseOffsets.find? := by
  have separated := h.separated none flags
  apply (layVbptrAsBase_ends based).imp
  rintro st' (⟨_, rfl⟩ | ⟨_, ⟨found, last, penultimate, site, scan, isLast, isPenultimate, starts,
    past, stop, room, placed⟩⟩)
  · exact separated
  have scanned := (lastBases_ends based).value scan
  rcases vbptrStart_cases scanned isLast isPenultimate starts with
    ⟨rfl, _⟩ | ⟨moved, layout, base, behind, rfl, put, starts⟩
  case inl =>
    rw [placed]
    exact separated
  case inr =>
    have offsets : st'.baseOffsets = based.baseOffsets.insert moved.record stop :=
      congrArg State.baseOffsets placed
    have below {r : RecordId} (other : r ≠ moved.record) (zeroSized : ZeroSized known r) :
        based.baseOffsets.find? r ≠ some stop := by
      intro at'
      have le : stop ≤ site := put.offset_le h none distinct flags data starts other zeroSized at'
      have := f.pointerSize_pos
      have := (Nat.lt_add_of_pos_right this).trans_le room
      exact absurd (le.trans past) (Nat.not_le_of_lt this)
    intro r r' x zeroSized zeroSized' at₁ at₂
    rw [offsets] at at₁ at₂
    by_cases here : r = moved.record
    · by_cases here' : r' = moved.record
      · exact here.trans here'.symm
      · rw [here, OrderedMap.find?_insert_self] at at₁
        rw [OrderedMap.find?_insert_of_ne _ _ here', ← at₁] at at₂
        exact absurd at₂ (below here' zeroSized')
    · rw [OrderedMap.find?_insert_of_ne _ _ here] at at₁
      by_cases here' : r' = moved.record
      · rw [here', OrderedMap.find?_insert_self, ← at₁] at at₂
        exact absurd at₂.symm (below here zeroSized)
      · rw [OrderedMap.find?_insert_of_ne _ _ here'] at at₂
        exact separated zeroSized zeroSized' at₁ at₂

end Pointers

/-- Pushed in or leading, the pointers of a class leave bases without data apart. -/
theorem layPointers_separated (once : LaidOnce f known row based st) (flags : FlagsZeroSized known)
    (distinct : (f.declaration.nonVirtualBases.map (·.record)).Nodup)
    (data : ∀ {r layout}, known.record r = .ok layout → layout.hasExtendableVfptr = true →
      0 < layout.dataSize) :
    Ends (fun _ => True) ((layPointers f st).eval known) fun st' =>
      Separated known st'.baseOffsets.find? := by
  have separated : Separated known st.baseOffsets.find? :=
    once.fields.baseOffsets ▸ once.bases.separated rfl flags
  apply layPointers_cases
  case none => exact fun _ _ => separated
  case again =>
    intro _
    apply (layWithLeadingPointers_ends st).imp
    rintro st' ⟨row', based', between', laid', again, placed, _, rfl⟩
    have offsets : laid'.baseOffsets = between'.baseOffsets := again.fields.baseOffsets
    dsimp only
    rw [offsets]
    exact (layVbptrAsBase_separated again.bases rfl distinct flags data).value placed
  case pushed =>
    intro _
    apply Ends.bind (injectVbptr_separated separated)
    intro st₁ separated₁
    exact injectVfptr_separated separated₁

section Virtual

variable {found : List RecordId} {walk walk' : BaseWalk} {v : RecordId}

/-- Where a state has its virtual bases. -/
def State.virtualBaseOffset (st : State) (v : RecordId) : Option Nat :=
  (st.virtualBaseSlots.find? v).map (·.offset)

/-- Virtual bases without data so far are apart, and the next one cannot meet any of them: they lie
before the end, or it is told that there is one at the end. -/
structure VirtualsApart (known : Known) (walk : BaseWalk) : Prop where
  separated : Separated known walk.state.virtualBaseOffset
  behind : ∀ v (x : Nat), ZeroSized known v → walk.state.virtualBaseOffset v = some x →
    x < walk.state.size ∨ (x = walk.state.size ∧ walk.endsWithZeroSized = true)

theorem layVirtualBase_apart (flags : FlagsZeroSized known) (h : VirtualsApart known walk) :
    Ends (fun _ => True) ((layVirtualBase f found walk v).eval known) (VirtualsApart known) := by
  apply layVirtualBase_placed.imp
  rintro walk' ⟨layout, slot, laid, _, placed⟩
  have past : walk.state.size ≤ slot.offset := (Nat.le_add_right _ _).trans placed.room
  have size : walk'.state.size = slot.offset + layout.dataSize := congrArg State.size placed.state
  have slots : walk'.state.virtualBaseSlots = walk.state.virtualBaseSlots.insert v slot :=
    congrArg State.virtualBaseSlots placed.state
  have atSelf : walk'.state.virtualBaseOffset v = some slot.offset := by
    simp [State.virtualBaseOffset, slots, OrderedMap.find?_insert_self]
  have atOther {w : RecordId} (other : w ≠ v) :
      walk'.state.virtualBaseOffset w = walk.state.virtualBaseOffset w := by
    simp [State.virtualBaseOffset, slots, OrderedMap.find?_insert_of_ne _ _ other]
  have ahead {w : RecordId} {x : Nat} (zeroSized : ZeroSized known w)
      (at' : walk.state.virtualBaseOffset w = some x) (empty : layout.dataSize = 0) :
      x < slot.offset := by
    rcases h.behind w x zeroSized at' with before | ⟨rfl, ends⟩
    · exact before.trans_le past
    · exact placed.apart ends (flags v layout laid empty).2
  have own (zeroSized : ZeroSized known v) : layout.dataSize = 0 := by
    obtain ⟨layout', laid', empty⟩ := zeroSized
    cases laid.symm.trans laid'
    exact empty
  constructor
  case separated =>
    intro w w' x zeroSized zeroSized' at₁ at₂
    by_cases here : w = v
    · by_cases here' : w' = v
      · exact here.trans here'.symm
      · subst here
        cases atSelf.symm.trans at₁
        exact absurd (ahead zeroSized' (atOther here' ▸ at₂) (own zeroSized)) (Nat.lt_irrefl _)
    · by_cases here' : w' = v
      · subst here'
        cases atSelf.symm.trans at₂
        exact absurd (ahead zeroSized (atOther here ▸ at₁) (own zeroSized')) (Nat.lt_irrefl _)
      · exact h.separated zeroSized zeroSized' (atOther here ▸ at₁) (atOther here' ▸ at₂)
  case behind =>
    intro w x zeroSized at'
    rw [size, placed.ends]
    by_cases here : w = v
    · subst here
      cases atSelf.symm.trans at'
      have empty := own zeroSized
      exact .inr ⟨by rw [empty]; rfl, (flags w layout laid empty).1⟩
    · rw [atOther here] at at'
      by_cases empty : layout.dataSize = 0
      · exact .inl ((ahead zeroSized at' empty).trans_le (Nat.le_add_right _ _))
      · have start : x ≤ walk.state.size := by
          rcases h.behind w x zeroSized at' with before | ⟨same, _⟩
          · exact before.le
          · exact same.le
        have data := Nat.lt_add_of_pos_right (n := slot.offset) (Nat.pos_of_ne_zero empty)
        exact .inl ((start.trans past).trans_lt data)

theorem layVirtualBases_separated (flags : FlagsZeroSized known)
    (fresh : st.virtualBaseSlots = .empty) :
    Ends (fun _ => True) ((layVirtualBases f st).eval known) fun st' =>
      Separated known st'.virtualBaseOffset := by
  have none (v : RecordId) : st.virtualBaseOffset v = none := by
    simp [State.virtualBaseOffset, fresh, OrderedMap.find?, OrderedMap.empty]
  have first : VirtualsApart known { state := st } := by
    constructor
    case separated =>
      intro v w x _ _ at' _
      cases (none v).symm.trans at'
    case behind =>
      intro v x _ at'
      cases (none v).symm.trans at'
  unfold layVirtualBases
  split
  case isTrue => exact first.separated
  case isFalse =>
    apply ends_bind Ends.any
    intro found _
    apply ends_bind (G := VirtualsApart known)
    case second => exact fun walk apart => apart.separated
    rw [LayoutM.eval_foldlM]
    apply Ends.foldlM_keeps first
    intro v _ walk apart
    exact layVirtualBase_apart flags apart

end Virtual

/-- Any two of these records that have no data have offsets, which differ. -/
def ApartWhereEmpty (known : Known) (records : List RecordId) (offset : RecordId → Checked Bytes) :
    Prop :=
  ∀ r ∈ records, ∀ r' ∈ records, r ≠ r' → ZeroSized known r → ZeroSized known r' →
    ∃ x x' : Nat, offset r = .ok x ∧ offset r' = .ok x' ∧ x ≠ x'

/-- What keeps objects of size zero apart in a class and in what is derived from it. -/
structure ZeroSizedApart (s : Setting) (known : Known) (d : RecordId) (layout : RecordLayout) :
    Prop where
  flags : layout.dataSize = 0 →
    layout.hasZeroSizedSubobject = true ∧ layout.leadsWithZeroSizedBase = true
  bases : ((s.tree.record d).nonVirtualBases.map (·.record)).Nodup →
    ApartWhereEmpty known ((s.tree.record d).nonVirtualBases.map (·.record)) layout.baseOffset
  virtualBases : ApartWhereEmpty known (s.tree.virtualBases d) layout.virtualBaseOffset

/-- Whichever way a class is laid out, no two of its bases without data share an address. -/
theorem zero_sized_bases_apart {s : Setting} {d : RecordId} {depth : Nat} {layout : RecordLayout}
    (microsoft : s.usesMicrosoftLayout = true) (isClass : (s.tree.record d).isClass = true)
    (laid : (s.known depth).record d = .ok layout) :
    ZeroSizedApart s (s.known depth) d layout := by
  obtain ⟨acyclic, hasVbptr⟩ := hasVbptr_iff microsoft depth laid
  have flags := flagsZeroSized microsoft depth
  have data {r : RecordId} {layout : RecordLayout} := @dataSize_pos s r microsoft depth layout
  obtain _ | depth := depth
  · cases laid
  have rules := LayoutM.eval_mono (s.known_succ depth) _ laid
  obtain ⟨run, rfl⟩ := classRun microsoft isClass rules
  constructor
  case flags => exact flags d _ laid
  case bases =>
    intro distinct r member r' member' differ zeroSized zeroSized'
    have separated := (layPointers_separated run.once flags distinct data).value run.pointers
    rw [← run.last_eq.2.1] at separated
    have keys := (run.last_basesListed distinct data).keys
    obtain ⟨x, at₁⟩ := Option.isSome_iff_exists.mp
      (OrderedMap.contains_iff.mpr (keys.mem_iff.mpr member))
    obtain ⟨x', at₂⟩ := Option.isSome_iff_exists.mp
      (OrderedMap.contains_iff.mpr (keys.mem_iff.mpr member'))
    refine ⟨x, x', State.classLayout_baseOffset.mpr at₁, State.classLayout_baseOffset.mpr at₂, ?_⟩
    rintro rfl
    exact differ (separated zeroSized zeroSized' at₁ at₂)
  case virtualBases =>
    intro v member w member' differ zeroSized zeroSized'
    have fresh : run.closed.virtualBaseSlots = .empty := by
      obtain ⟨size, _, _, closed⟩ := run.closing
      rw [closed]
      exact ((layPointers_flags run.once).value run.pointers).2
    have separated := (layVirtualBases_separated flags fresh).value run.virtualBases
    have has : run.last.hasVbptr = true := by
      rw [← run.last.classLayout_hasVbptr, hasVbptr]
      exact ⟨v, (Tree.mem_virtualBases acyclic).mp member⟩
    have keys := run.virtualBaseSlots_keys (Tree.virtualBases_nodup acyclic)
    rw [if_pos has] at keys
    obtain ⟨slot, at₁⟩ := Option.isSome_iff_exists.mp
      (OrderedMap.contains_iff.mpr (keys ▸ member))
    obtain ⟨slot', at₂⟩ := Option.isSome_iff_exists.mp
      (OrderedMap.contains_iff.mpr (keys ▸ member'))
    refine ⟨slot.offset, slot'.offset, ?_, ?_, fun same => ?_⟩
    · rw [RecordLayout.virtualBaseOffset, State.classLayout_virtualBaseSlot.mpr at₁]
      rfl
    · rw [RecordLayout.virtualBaseOffset, State.classLayout_virtualBaseSlot.mpr at₂]
      rfl
    · rw [run.finished.virtualBaseSlots] at at₁ at₂
      exact differ (separated (x := slot.offset) zeroSized zeroSized'
        (by rw [State.virtualBaseOffset, at₁]; rfl) (by rw [State.virtualBaseOffset, at₂, same]; rfl))

/-- All five bases of `D` are without data, and two of them are virtual. -/
def hollowBases (alignment : Option Bytes) : Setting :=
  .windows .x86_64 [
    .ofClass "E" [] [] [],
    .ofClass "F" [] [] [],
    .ofClass "G" [] [] [],
    .ofClass "V" [] [] [],
    .ofClass "W" [] [] [],
    .ofClass "D" [{ name := "d", type := .scalar ⟨0⟩ (.integer .int .signed) }]
      [{ record := ⟨0⟩ }, { record := ⟨1⟩ }, { record := ⟨2⟩ }, { record := ⟨3⟩, isVirtual := true },
        { record := ⟨4⟩, isVirtual := true }] [] { alignment }] []

/-- The vbptr is pushed in before `G`, or `G` moves behind it because `D` asks for sixteen bytes. -/
theorem zero_sized_bases_apart_hollowBases :
    (∃ layout, ((hollowBases none).known 6).record ⟨5⟩ = .ok layout ∧
      layout.asClass.map (·.baseOffsets.entries) = some [(⟨0⟩, 0), (⟨1⟩, 1), (⟨2⟩, 18)] ∧
      ZeroSizedApart (hollowBases none) ((hollowBases none).known 6) ⟨5⟩ layout) ∧
    ∃ layout, ((hollowBases (some 16)).known 6).record ⟨5⟩ = .ok layout ∧
      layout.asClass.map (·.baseOffsets.entries) = some [(⟨0⟩, 0), (⟨1⟩, 1), (⟨2⟩, 17)] ∧
      ZeroSizedApart (hollowBases (some 16)) ((hollowBases (some 16)).known 6) ⟨5⟩ layout := by
  constructor
  · obtain ⟨layout, laid⟩ := exists_ok (by decide +kernel :
      (((hollowBases none).known 6).record ⟨5⟩).isOk = true)
    have bases : ((hollowBases none).known 6).has (fun layout =>
        layout.asClass.map (·.baseOffsets.entries) == some [(⟨0⟩, 0), (⟨1⟩, 1), (⟨2⟩, 18)]) ⟨5⟩
        = true := by
      decide +kernel
    rw [Known.has_eq laid, beq_iff_eq] at bases
    exact ⟨layout, laid, bases, zero_sized_bases_apart (by decide) (by decide) laid⟩
  · obtain ⟨layout, laid⟩ := exists_ok (by decide +kernel :
      (((hollowBases (some 16)).known 6).record ⟨5⟩).isOk = true)
    have bases : ((hollowBases (some 16)).known 6).has (fun layout =>
        layout.asClass.map (·.baseOffsets.entries) == some [(⟨0⟩, 0), (⟨1⟩, 1), (⟨2⟩, 17)]) ⟨5⟩
        = true := by
      decide +kernel
    rw [Known.has_eq laid, beq_iff_eq] at bases
    exact ⟨layout, laid, bases, zero_sized_bases_apart (by decide) (by decide) laid⟩

end ObjectLayout.Microsoft
