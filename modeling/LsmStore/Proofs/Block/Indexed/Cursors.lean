import LsmStore.Proofs.Block.Indexed.Entries

/-!
# Cursors with indices

A cursor that works with indices stands for a cursor of the block if it has the same
offset, the same lengths and the same remembered keys.  Moving it on and asking it
for its key keep that relation.  The replay that rebuilds a key takes the very way
that the cursor has come, so it ends on the entry of the cursor.
-/

namespace LsmStore

namespace Block.Indexed

/-! ## Cursors -/

/-- A key that is known from a source, or not known without one. -/
def Reader.Knows (reader : Reader) : Option Source → Option Bytes → Prop
  | none, none => True
  | some source, some key => reader.resolve source = pure key
  | _, _ => False

/-- A cursor that is at a position. -/
structure Cursor.MirrorsOn (reader : Reader) (cursor : Cursor) (position : Position) : Prop where
  offset_eq : cursor.offset = position.offset
  header_eq : cursor.header = headerAt position.offset position.entry
  restart_eq : cursor.restart = position.fullAt
  keyLength_eq : cursor.keyLength = position.entry.keyLength
  knows : reader.Knows cursor.previous? position.previous?
  key?_eq : cursor.key? = position.built?
  damage?_eq : cursor.damage? = none

/-- A cursor that stands for a cursor of the block. -/
def Cursor.Mirrors (reader : Reader) (cursor : Cursor) : Block.Cursor → Prop
  | .on position => cursor.MirrorsOn reader position
  | .ended damage => cursor.offset = reader.restartsOffset ∧ cursor.damage? = damage

theorem Reader.ended_mirrors
    (reader : Reader) :
    reader.ended.Mirrors reader (.ended none) :=
  ⟨rfl, rfl⟩

theorem Reader.fail_mirrors
    (reader : Reader) (cursor : Cursor) (cause : Corruption) :
    (reader.fail cursor cause).Mirrors reader (.ended (some cause)) :=
  ⟨rfl, rfl⟩

namespace Reader.Reads

variable {reader : Reader} {block : Block}

theorem exists_seekEntry
    (h : reader.Reads block) {cursor : Cursor} {context : Context} (offset : Nat)
    (hlength : cursor.keyLength = context.keyLength)
    (hrestart : cursor.restart = context.fullAt)
    (hknows : reader.Knows cursor.previous? context.key?) (hdamage : cursor.damage? = none) :
    ∃ next, reader.seekEntry cursor offset = pure next ∧
      next.Mirrors reader (land offset (block.entries.dropTo offset) context) := by
  have hregion : (block.entries.dropTo offset).length = reader.restartsOffset - offset := by
    rw [EntryRegion.length_dropTo, h.size_eq]
  rw [Reader.seekEntry, land]
  by_cases hpast : reader.restartsOffset ≤ offset
  · have hempty : (block.entries.dropTo offset).isEmpty = true := by
      rw [List.isEmpty_iff, ← List.length_eq_zero_iff, hregion]
      omega
    rw [if_pos hpast, if_pos hempty]
    exact ⟨_, rfl, rfl, hdamage⟩
  have hnonempty : ¬ (block.entries.dropTo offset).isEmpty = true := by
    rw [List.isEmpty_iff, ← List.length_eq_zero_iff, hregion]
    omega
  rw [if_neg hpast, if_neg hnonempty, h.header_eq, pure_bind, entryAt, h.size_eq, if_neg hpast]
  cases hread : Entry.read offset (block.entries.dropTo offset) with
  | error cause => exact ⟨_, rfl, rfl, rfl⟩
  | ok found =>
    simp only [Except.map, hlength]
    by_cases hshared : context.keyLength < found.shared
    · rw [if_pos (show context.keyLength < (headerAt offset found).shared from hshared),
        if_pos hshared]
      exact ⟨_, rfl, rfl, rfl⟩
    rw [if_neg (show ¬ context.keyLength < (headerAt offset found).shared from hshared),
      if_neg hshared]
    have hsum : (headerAt offset found).shared + (headerAt offset found).unshared <
        UInt64.size := by
      have hend := h.end_le hread
      have hsmall := h.restartsOffset_lt
      have hfits := Entry.shared_lt_of_read hread
      obtain ⟨headerSize, -, -, hsize, -, -⟩ := Entry.layout_of_read hread
      have hword : 2 * UInt32.size < UInt64.size := by decide
      simp only [headerAt]
      omega
    rw [add_eq hsum, pure_bind]
    refine ⟨_, rfl, ?_⟩
    constructor
    · rfl
    · rfl
    · simp only [hrestart, headerAt, Entry.Found.isFull_iff]
    · rfl
    · exact hknows
    · rfl
    · exact hdamage

theorem exists_startAt
    (h : reader.Reads block) (offset : Nat) :
    ∃ next, reader.startAt offset = pure next ∧
      next.Mirrors reader (block.startAt offset).result := by
  obtain ⟨next, hnext, hmirrors⟩ :=
    @exists_seekEntry reader block h { reader.ended with restart := offset }
      ⟨0, offset, none⟩ offset rfl rfl trivial rfl
  refine ⟨next, hnext, ?_⟩
  rwa [Block.startAt, Block.Cursor.result_counted]

theorem exists_first
    (h : reader.Reads block) :
    ∃ next, reader.first = pure next ∧ next.Mirrors reader block.first.result := by
  rw [Reader.first]
  by_cases hempty : reader.restartsOffset = 0
  · rw [if_pos hempty]
    refine ⟨reader.ended, rfl, ?_⟩
    have hregion : block.entries.dropTo 0 = [] := by
      rw [h.dropTo_eq, hempty]
      rfl
    rw [Block.first, Block.startAt, Block.Cursor.result_counted, hregion]
    exact reader.ended_mirrors
  · rw [if_neg hempty]
    exact h.exists_startAt 0

end Reader.Reads

section

variable {reader : Reader} {block : Block} {cursor : Cursor} {position : Position}
variable {previous : Bytes}

theorem Cursor.Mirrors.isOn_eq_false
    {damage : Option Corruption} (h : cursor.Mirrors reader (.ended damage)) :
    reader.isOn cursor = false := by
  rw [Reader.isOn, h.1]
  simp

theorem Cursor.MirrorsOn.isOn_eq_true
    (h : cursor.MirrorsOn reader position) (hreads : reader.Reads block)
    (hfollows : position.Follows block previous) :
    reader.isOn cursor = true := by
  have hinside := hfollows.offset_lt
  rw [hreads.size_eq, ← h.offset_eq] at hinside
  simpa [Reader.isOn] using hinside

theorem Cursor.MirrorsOn.exists_carried
    (h : cursor.MirrorsOn reader position) (hreads : reader.Reads block)
    (hfollows : position.Follows block previous) :
    ∃ carried?, Reader.carried cursor = pure carried? ∧
      reader.Knows carried? position.knownKey? := by
  have hkeyEnd := hreads.keyEnd_eq hfollows.read_eq
  have hdelta := hreads.delta_eq hfollows.read_eq
  rw [Reader.delta, hkeyEnd, pure_bind] at hdelta
  rw [Reader.carried, h.header_eq]
  by_cases hshared : position.entry.shared = 0
  · have hfull := Entry.Found.isFull_iff.mpr hshared
    rw [if_pos (show (headerAt position.offset position.entry).shared = 0 from hshared), hkeyEnd,
      pure_bind, Position.knownKey?, hfull]
    exact ⟨_, rfl, hdelta⟩
  · have hpartial := Bool.eq_false_iff.mpr (mt Entry.Found.isFull_iff.mp hshared)
    rw [if_neg (show ¬ (headerAt position.offset position.entry).shared = 0 from hshared),
      Position.knownKey?, hpartial, h.key?_eq]
    refine ⟨_, rfl, ?_⟩
    cases position.built? with
    | none => exact trivial
    | some key => exact rfl

theorem Cursor.MirrorsOn.forward
    {next : Cursor} (h : cursor.MirrorsOn reader position)
    (hfollows : position.Follows block previous)
    (hnext : next.Mirrors reader position.advance) (hon : reader.isOn next = true) :
    cursor.offset + 3 ≤ next.offset := by
  rcases hfollows.advance_cases with ⟨reached, hreached, hoffset, -⟩ | ⟨damage, hended, -⟩
  · rw [hreached] at hnext
    have hsize := (Entry.length_eq_of_read hfollows.read_eq).2
    rw [h.offset_eq, hnext.offset_eq, hoffset, Position.nextOffset]
    exact Nat.add_le_add_left hsize _
  · rw [hended] at hnext
    rw [hnext.isOn_eq_false] at hon
    cases hon

theorem Cursor.MirrorsOn.exists_advance
    (h : cursor.MirrorsOn reader position) (hreads : reader.Reads block)
    (hfollows : position.Follows block previous) :
    ∃ next, reader.advance cursor = pure next ∧ next.Mirrors reader position.advance := by
  obtain ⟨carried?, hcarried, hknows⟩ := h.exists_carried hreads hfollows
  obtain ⟨next, hnext, hmirrors⟩ :=
    @Reader.Reads.exists_seekEntry reader block hreads { cursor with previous? := carried? }
      position.context position.nextOffset h.keyLength_eq h.restart_eq hknows h.damage?_eq
  rw [← hfollows.rest_eq, ← Position.advance] at hmirrors
  refine ⟨next, ?_, hmirrors⟩
  have hforward := h.forward hfollows hmirrors
  have hoffset : cursor.header.next = pure position.nextOffset := by
    rw [h.header_eq, hreads.next_eq hfollows.read_eq]
    rfl
  rw [Reader.advance, h.isOn_eq_true hreads hfollows, if_neg (by decide), hcarried, pure_bind,
    hoffset, pure_bind, hnext, pure_bind, ensure_eq hforward, pure_bind]

/-! ## Keys -/

namespace Cursor.MirrorsOn

theorem rebuild_eq
    (h : cursor.MirrorsOn reader position) (hreads : reader.Reads block)
    (hfollows : position.Follows block previous)
    (hprevious : reader.previousKey cursor = pure previous) :
    reader.rebuild cursor = pure (position.entry.keyAfter previous) := by
  have hdelta := hreads.delta_eq hfollows.read_eq
  have hshared : cursor.header.shared = position.entry.shared := by
    rw [h.header_eq]
    rfl
  have hsum : position.entry.shared + position.entry.delta.length < UInt64.size := by
    have hlength := Nat.lt_of_lt_of_le hfollows.length_keyAfter_lt hfollows.nextOffset_le
    rw [← hfollows.keyLength_eq, hreads.size_eq, Entry.Found.keyLength] at hlength
    rw [Entry.length_delta_of_read hfollows.read_eq]
    exact Nat.lt_trans (Nat.lt_trans hlength hreads.restartsOffset_lt) (by decide)
  rw [Reader.rebuild, hprevious, pure_bind, hshared, ensure_eq hfollows.shared_le, pure_bind,
    h.header_eq, hdelta, pure_bind, add_eq hsum, pure_bind,
    slice_eq (Nat.zero_le _) hfollows.shared_le, pure_bind]
  rfl

theorem exists_key_of_previous
    (h : cursor.MirrorsOn reader position) (hreads : reader.Reads block)
    (hfollows : position.Follows block previous)
    (hprevious : position.knownKey? = none → reader.previousKey cursor = pure previous) :
    ∃ kept, reader.key cursor = pure (position.entry.keyAfter previous, kept) ∧
      kept.MirrorsOn reader (position.remember (position.entry.keyAfter previous)) := by
  have hshared : cursor.header.shared = position.entry.shared := by
    rw [h.header_eq]
    rfl
  rw [Reader.key, ensure_eq (h.isOn_eq_true hreads hfollows), pure_bind, hshared]
  by_cases hzero : position.entry.shared = 0
  · have hfull := Entry.Found.isFull_iff.mpr hzero
    rw [if_pos hzero, h.header_eq, hreads.delta_eq hfollows.read_eq, pure_bind,
      Entry.Found.keyAfter_of_isFull hfull, Position.remember, if_pos hfull]
    exact ⟨cursor, rfl, h⟩
  have hpartial := mt Entry.Found.isFull_iff.mp hzero
  rw [if_neg hzero, h.key?_eq, Position.remember, if_neg hpartial]
  cases hbuilt : position.built? with
  | some key =>
    rw [← hfollows.built?_eq key hbuilt]
    exact ⟨cursor, rfl, ⟨h.offset_eq, h.header_eq, h.restart_eq, h.keyLength_eq, h.knows,
      h.key?_eq.trans hbuilt, h.damage?_eq⟩⟩
  | none =>
    have hunknown : position.knownKey? = none := by
      rw [Position.knownKey?, if_neg hpartial, hbuilt]
    have hlength : (position.entry.keyAfter previous).length < reader.restartsOffset :=
      hreads.size_eq ▸ Nat.lt_of_lt_of_le hfollows.length_keyAfter_lt hfollows.nextOffset_le
    simp only
    rw [h.rebuild_eq hreads hfollows (hprevious hunknown), pure_bind, ensure_eq hlength, pure_bind]
    exact ⟨_, rfl, ⟨h.offset_eq, h.header_eq, h.restart_eq, h.keyLength_eq, h.knows, rfl,
      h.damage?_eq⟩⟩

/-- A key that was carried along is found without a replay. -/
theorem previousKey_eq_of_carried
    (h : cursor.MirrorsOn reader position) (hfollows : position.Follows block previous)
    (hcarried : position.previous? ≠ none) :
    reader.previousKey cursor = pure previous := by
  have hknows := h.knows
  rw [Reader.previousKey]
  cases hprevious : position.previous? with
  | none => exact absurd hprevious hcarried
  | some key =>
    rw [hprevious] at hknows
    cases hsource : cursor.previous? with
    | none =>
      rw [hsource] at hknows
      exact hknows.elim
    | some source =>
      rw [hsource] at hknows
      rw [← hfollows.previous?_eq key hprevious]
      exact hknows

theorem exists_key_of_carried
    (h : cursor.MirrorsOn reader position) (hreads : reader.Reads block)
    (hfollows : position.Follows block previous)
    (hcarried : position.knownKey? = none → position.previous? ≠ none) :
    ∃ kept, reader.key cursor = pure (position.entry.keyAfter previous, kept) ∧
      kept.MirrorsOn reader (position.remember (position.entry.keyAfter previous)) :=
  h.exists_key_of_previous hreads hfollows fun hunknown =>
    h.previousKey_eq_of_carried hfollows (hcarried hunknown)

/-- Retracing does what a replay does: each key is built from the one before, so that no other
replay is started. -/
theorem exists_retrace
    (h : cursor.MirrorsOn reader position) (hreads : reader.Reads block)
    (hfollows : position.Follows block previous)
    (hcarried : position.knownKey? = none → position.previous? ≠ none)
    (target : Nat) (given : Bytes) :
    let walk := block.walkAt position.offset previous
    ∃ landed reached,
      reader.retrace target given cursor =
        pure (((walk.before target).getLast?.map Visit.key).getD given, landed) ∧
      landed.Mirrors reader reached ∧
      reached.Shows block (walk.dropped (walk.before target).length) := by
  -- Along the entries that are still to be read.
  induction hrest : position.rest.length using Nat.strongRecOn
    generalizing cursor position previous given with
  | ind length ih =>
    have hon := h.isOn_eq_true hreads hfollows
    simp only
    rw [Reader.retrace, h.offset_eq]
    by_cases hbefore : position.offset < target
    · have hvisit : ∀ visit ∈ [position.visit previous], visit.offset < target := by
        simpa [Position.visit] using hbefore
      obtain ⟨kept, hkey, hkept⟩ := h.exists_key_of_carried hreads hfollows hcarried
      obtain ⟨next, hnext, hmirrors⟩ := hkept.exists_advance hreads hfollows.remember
      rw [if_pos ⟨hon, hbefore⟩, hkey, pure_bind]
      dsimp only
      rw [hnext, pure_bind, hfollows.walkAt_eq, Walk.before_after hvisit]
      rcases hfollows.advance_remember_cases with
        ⟨reached, hreached, hshorter, hknown, hoffset, hnextFollows⟩ | ⟨damage, hended, hnone⟩
      · rw [hreached] at hmirrors
        obtain ⟨landed, final, hlanded, hfinal, hshows⟩ :=
          ih reached.rest.length (hrest ▸ hshorter) hmirrors hnextFollows (fun _ => hknown)
            (position.entry.keyAfter previous) rfl
        rw [hoffset] at hlanded hshows
        refine ⟨landed, final, ?_, hfinal, ?_⟩
        · rw [hlanded]
          exact congrArg (fun key => pure (key, landed))
            (lastKey_cons (position.visit previous) _ given).symm
        · simpa [Walk.dropped, Walk.after] using hshows
      · rw [hended] at hmirrors
        rw [hnone, Reader.retrace, hmirrors.isOn_eq_false, if_neg (by simp)]
        exact ⟨next, .ended damage, rfl, hmirrors, rfl⟩
    · rw [if_neg (fun hboth => hbefore hboth.2),
        hfollows.before_walkAt (Nat.le_of_not_lt hbefore)]
      exact ⟨cursor, .on position, rfl, h, previous, hfollows, rfl⟩

/-- A replay ends on the entry of the cursor that it was started for. -/
theorem replay_eq
    (h : cursor.MirrorsOn reader position) (hreads : reader.Reads block)
    (hfollows : position.Follows block previous) (hpartial : position.entry.isFull = false) :
    reader.replay cursor = pure previous := by
  obtain ⟨front, hwalk, hfront, hlast⟩ := hfollows.retraced
  have hbefore : (block.walkAt position.fullAt []).before position.offset = front := by
    rw [hwalk, Walk.before_after hfront, hfollows.before_walkAt (Nat.le_refl _),
      List.append_nil]
  obtain ⟨next, hnext, hmirrors⟩ := hreads.exists_startAt position.fullAt
  rcases startAt_cases block position.fullAt with
    ⟨start, hstart, hoffset, hstartFollows⟩ | ⟨damage, hstart, hnone⟩
  · rw [hstart] at hmirrors
    have hfull := Entry.Found.isFull_iff.mpr (Nat.le_zero.mp hstartFollows.shared_le)
    have hknown : start.knownKey? ≠ none := by simp [Position.knownKey?, hfull]
    obtain ⟨landed, reached, hretrace, hreached, hshows⟩ :=
      exists_retrace hmirrors hreads hstartFollows (fun hunknown => absurd hunknown hknown)
        position.offset []
    rw [hoffset, hbefore, hwalk, Walk.dropped_after, hfollows.walkAt_eq] at hshows
    rw [hoffset, hbefore, hlast hpartial] at hretrace
    obtain ⟨final, key, rfl, -, hvisit, -⟩ := hshows.exists_on
    have hlanded : landed.offset = cursor.offset := by
      rw [h.offset_eq, hreached.offset_eq]
      exact (congrArg Visit.offset hvisit).symm
    rw [Reader.replay, h.restart_eq, h.offset_eq, hnext, pure_bind, hretrace, pure_bind]
    dsimp only
    rw [ensure_eq (hlanded.trans h.offset_eq), pure_bind]
    rfl
  · have hvisits := congrArg Walk.visits (hnone.symm.trans hwalk)
    rw [hfollows.walkAt_eq] at hvisits
    simp [Walk.after] at hvisits

theorem exists_key
    (h : cursor.MirrorsOn reader position) (hreads : reader.Reads block)
    (hfollows : position.Follows block previous) :
    ∃ kept, reader.key cursor = pure (position.entry.keyAfter previous, kept) ∧
      kept.MirrorsOn reader (position.remember (position.entry.keyAfter previous)) := by
  refine h.exists_key_of_previous hreads hfollows fun hunknown => ?_
  by_cases hcarried : position.previous? = none
  · have hknows := h.knows
    have hpartial : position.entry.isFull = false := by
      cases hfull : position.entry.isFull with
      | true => simp [Position.knownKey?, hfull] at hunknown
      | false => rfl
    rw [hcarried] at hknows
    rw [Reader.previousKey]
    cases hsource : cursor.previous? with
    | none => exact h.replay_eq hreads hfollows hpartial
    | some source =>
      rw [hsource] at hknows
      exact hknows.elim
  · exact h.previousKey_eq_of_carried hfollows hcarried

theorem value_eq
    (h : cursor.MirrorsOn reader position) (hreads : reader.Reads block)
    (hfollows : position.Follows block previous) :
    reader.value cursor.header = pure position.entry.value := by
  rw [h.header_eq, hreads.value_eq hfollows.read_eq]

end Cursor.MirrorsOn

end

end Block.Indexed

end LsmStore
