import LsmStore.Proofs.Block.Indexed.Cursors

/-!
# Reading unchecked bytes is safe

On the contents of every block that is opened, whatever they are, the reader that
works with indices ends each of its operations without a slip, and it answers what
the block answers.  The comparison of keys may be any function.
-/

namespace LsmStore.Block.Indexed

variable {reader : Reader} {block : Block} {cursor : Cursor} {position : Position}
variable {previous : Bytes}

/-! ## Searches and walks -/

namespace Reader.Reads

theorem restartCount_lt
    (h : reader.Reads block) :
    reader.restartCount < UInt32.size := by
  have hlength := h.length_eq
  have hsmall := h.length_lt
  rw [restartWidth] at hlength
  omega

theorem bisect_eq
    (h : reader.Reads block) (target : Bytes) {left right : Nat}
    (hnonempty : left < right) (hbound : right ≤ block.restarts.size) :
    reader.bisect target left right =
      pure ((block.bisect target left right hnonempty hbound).map Fin.val) := by
  have hsmall := h.restartCount_lt
  have hword : 2 * UInt32.size < UInt64.size := by decide
  -- Along the length of the interval.
  induction hgap : right - left using Nat.strongRecOn generalizing left right with
  | ind gap ih =>
    have hright : right < UInt32.size := Nat.lt_of_le_of_lt hbound (h.count_eq ▸ hsmall)
    rw [Reader.bisect, Block.bisect, sub_eq (Nat.le_of_lt hnonempty), pure_bind]
    by_cases hseveral : 1 < right - left
    · have hmiddle : left + (right - left) / 2 < block.restarts.size := by omega
      rw [if_pos hseveral, dif_pos hseveral, pure_bind, add_eq (by omega), pure_bind,
        h.keyAtRestart_eq hmiddle, pure_bind]
      dsimp only
      cases block.fullKeyAt (left + (right - left) / 2)
          block.restarts[left + (right - left) / 2] with
      | error cause => rfl
      | ok key =>
        dsimp only
        rw [h.order_eq]
        by_cases hgreater : block.order.compare key target = .gt
        · rw [if_pos hgreater, if_pos hgreater]
          exact ih _ (by omega) (by omega) (by omega) rfl
        · rw [if_neg hgreater, if_neg hgreater]
          exact ih _ (by omega) (by omega) hbound rfl
    · rw [if_neg hseveral, dif_neg hseveral]
      rfl

end Reader.Reads

theorem Cursor.MirrorsOn.exists_scan
    (h : cursor.MirrorsOn reader position) (hreads : reader.Reads block)
    (hfollows : position.Follows block previous) (target : Bytes) :
    ∃ found, reader.scan target cursor = pure found ∧
      found.Mirrors reader (block.scan target position).result := by
  -- Along the entries that are still to be read.
  induction hrest : position.rest.length using Nat.strongRecOn
    generalizing cursor position previous with
  | ind length ih =>
    obtain ⟨kept, hkey, hkept⟩ := h.exists_key hreads hfollows
    rw [Reader.scan, h.isOn_eq_true hreads hfollows, if_neg (by decide), hkey, pure_bind,
      scan_eq]
    simp only [Counted.result_bind, hfollows.keyAt_eq, hreads.order_eq]
    by_cases hless : block.order.compare (position.entry.keyAfter previous) target = .lt
    · obtain ⟨next, hnext, hmirrors⟩ := hkept.exists_advance hreads hfollows.remember
      rw [if_pos hless, if_pos hless, hnext, pure_bind]
      rcases hfollows.advance_remember_cases with
        ⟨reached, hreached, hshorter, -, -, hnextFollows⟩ | ⟨damage, hended, -⟩
      · rw [hreached] at hmirrors ⊢
        exact ih reached.rest.length (hrest ▸ hshorter) hmirrors hnextFollows rfl
      · rw [hended] at hmirrors ⊢
        rw [Reader.scan, hmirrors.isOn_eq_false]
        exact ⟨next, rfl, hmirrors⟩
    · rw [if_neg hless, if_neg hless]
      exact ⟨kept, rfl, hkept⟩

namespace Reader.Reads

theorem exists_lowerBound
    (h : reader.Reads block) (target : Bytes) :
    ∃ found, reader.lowerBound target = pure found ∧
      found.Mirrors reader (block.lowerBound target).result := by
  rw [Reader.lowerBound, Block.lowerBound]
  by_cases husable : 0 < block.restarts.size ∧ 0 < block.entries.size
  · have hsome : ¬ (reader.restartCount = 0 ∨ reader.restartsOffset = 0) := by
      rw [h.count_eq, h.size_eq] at husable
      omega
    rw [if_neg hsome, startIndex?_of_usable husable, ← h.count_eq,
      h.bisect_eq target husable.1 (Nat.le_refl _), pure_bind]
    cases block.bisect target 0 block.restarts.size husable.1 (Nat.le_refl _) with
    | error cause => exact ⟨_, rfl, reader.fail_mirrors reader.ended cause⟩
    | ok index =>
      simp only [Except.map, Fin.getElem_fin]
      rw [h.restartPoint_eq index.isLt, pure_bind, scanFrom, h.size_eq]
      by_cases hpast : reader.restartsOffset ≤ block.restarts[(index : Nat)]
      · rw [if_pos hpast, if_pos hpast]
        exact ⟨_, rfl, reader.fail_mirrors reader.ended _⟩
      rw [if_neg hpast, if_neg hpast]
      obtain ⟨next, hnext, hmirrors⟩ := h.exists_startAt block.restarts[(index : Nat)]
      rw [hnext, pure_bind]
      rcases startAt_cases block block.restarts[(index : Nat)] with
        ⟨start, hstart, -, hfollows⟩ | ⟨damage, hstart, -⟩
      · rw [hstart] at hmirrors ⊢
        exact hmirrors.exists_scan h hfollows target
      · rw [hstart] at hmirrors ⊢
        rw [Reader.scan, hmirrors.isOn_eq_false]
        exact ⟨next, rfl, hmirrors⟩
  · have hnone : reader.restartCount = 0 ∨ reader.restartsOffset = 0 := by
      rw [h.count_eq, h.size_eq] at husable
      omega
    rw [if_pos hnone, startIndex?_of_not_usable husable]
    exact ⟨_, rfl, reader.ended_mirrors⟩

theorem exists_find
    (h : reader.Reads block) (target : Bytes) :
    ∃ found, reader.find target = pure found ∧
      found.Mirrors reader (block.find target).result := by
  obtain ⟨lower, hlower, hmirrors⟩ := h.exists_lowerBound target
  have hshows := lowerBound_shows block target
  rw [Reader.find, hlower, pure_bind, Block.find, Counted.result_bind]
  cases hcursor : (block.lowerBound target).result with
  | ended damage =>
    rw [hcursor] at hmirrors
    rw [hmirrors.isOn_eq_false]
    exact ⟨lower, rfl, hmirrors⟩
  | on position =>
    rw [hcursor] at hmirrors hshows
    obtain ⟨previous, hfollows, -⟩ := hshows
    obtain ⟨kept, hkey, hkept⟩ := hmirrors.exists_key h hfollows
    rw [hmirrors.isOn_eq_true h hfollows, if_neg (by decide), hkey, pure_bind]
    simp only [Counted.result_bind, hfollows.keyAt_eq, h.order_eq]
    by_cases hequal : block.order.compare (position.entry.keyAfter previous) target = .eq
    · rw [if_pos hequal, if_pos hequal]
      exact ⟨kept, rfl, hkept⟩
    · rw [if_neg hequal, if_neg hequal]
      exact ⟨reader.ended, rfl, reader.ended_mirrors⟩

end Reader.Reads

theorem Cursor.Mirrors.walkFrom_eq
    {shown : Block.Cursor} {walk : Walk}
    (h : cursor.Mirrors reader shown) (hreads : reader.Reads block)
    (hshows : shown.Shows block walk) :
    reader.walkFrom cursor = pure walk := by
  -- Along the visits of the walk.
  obtain ⟨visits, damage⟩ := walk
  induction visits generalizing cursor shown with
  | nil =>
    rw [hshows.eq_ended] at h
    rw [Reader.walkFrom, h.isOn_eq_false, h.2]
    rfl
  | cons visit visits ih =>
    obtain ⟨position, previous, rfl, hfollows, rfl, hwalk⟩ := hshows.exists_on
    obtain ⟨kept, hkey, hkept⟩ := h.exists_key hreads hfollows
    obtain ⟨next, hnext, hmirrors⟩ := hkept.exists_advance hreads hfollows.remember
    have htail : (position.remember (position.entry.keyAfter previous)).advance.Shows block
        ⟨visits, damage⟩ := by
      have hadvanced := hfollows.remember.advance_shows
      rw [Position.offset_remember, ← hwalk] at hadvanced
      exact hadvanced
    have hvalue := hkept.value_eq hreads hfollows.remember
    rw [Reader.walkFrom, h.isOn_eq_true hreads hfollows, if_neg (by decide), hkey, pure_bind]
    dsimp only
    rw [hvalue, pure_bind, hnext, pure_bind, ih hmirrors htail, pure_bind, hkept.offset_eq,
      Position.offset_remember, Position.entry_remember]
    rfl

theorem Cursor.Mirrors.offset_eq
    {shown : Block.Cursor} (h : cursor.Mirrors reader shown) (hreads : reader.Reads block) :
    cursor.offset = block.offsetOf shown := by
  cases shown with
  | ended damage => exact h.1.trans hreads.size_eq.symm
  | on position => exact Cursor.MirrorsOn.offset_eq h

theorem Cursor.Mirrors.look_eq
    {shown : Block.Cursor} {walk : Walk}
    (h : cursor.Mirrors reader shown) (hreads : reader.Reads block)
    (hshows : shown.Shows block walk) :
    reader.look cursor = block.look shown := by
  cases shown with
  | ended damage =>
    rw [Reader.look, h.isOn_eq_false, h.1, h.2, ← hreads.size_eq]
    rfl
  | on position =>
    obtain ⟨previous, hfollows, -⟩ := hshows
    rw [Reader.look, h.isOn_eq_true hreads hfollows, h.offset_eq hreads, h.damage?_eq]
    rfl

theorem Reader.Reads.probe_eq
    (h : reader.Reads block) (target : Bytes) :
    reader.probe target = pure (block.probe target).result := by
  obtain ⟨lower, hlower, hmirrors⟩ := h.exists_lowerBound target
  have hshows := lowerBound_shows block target
  rw [Reader.probe, hlower, pure_bind, Block.probe, Counted.result_bind]
  cases hcursor : (block.lowerBound target).result with
  | ended damage =>
    rw [hcursor] at hmirrors
    rw [hmirrors.isOn_eq_false, hmirrors.2]
    rfl
  | on position =>
    rw [hcursor] at hmirrors hshows
    obtain ⟨previous, hfollows, -⟩ := hshows
    obtain ⟨kept, hkey, hkept⟩ := hmirrors.exists_key h hfollows
    have hvalue := hkept.value_eq h hfollows.remember
    rw [hmirrors.isOn_eq_true h hfollows, if_neg (by decide), hkey, pure_bind]
    dsimp only
    rw [hvalue, pure_bind, Position.entry_remember]
    simp only [Counted.result_bind, hfollows.keyAt_eq]
    rfl

theorem Reader.Reads.probes_eq
    (h : reader.Reads block) (targets : List Bytes) :
    targets.mapM reader.probe = pure (targets.mapM block.probe).result := by
  induction targets with
  | nil => rfl
  | cons target targets ih =>
    rw [List.mapM_cons, List.mapM_cons, h.probe_eq, pure_bind, ih, pure_bind]
    rfl

/-! ## Sessions -/

theorem Cursor.Mirrors.advance_eq_of_ended
    {damage : Option Corruption} (h : cursor.Mirrors reader (.ended damage)) :
    reader.advance cursor = pure cursor := by
  rw [Reader.advance, h.isOn_eq_false]
  rfl

theorem Cursor.Mirrors.exists_advance
    {shown : Block.Cursor} {walk : Walk}
    (h : cursor.Mirrors reader shown) (hreads : reader.Reads block)
    (hshows : shown.Shows block walk) :
    ∃ next, reader.advance cursor = pure next ∧
      next.Mirrors reader shown.advance.result := by
  cases shown with
  | ended damage => exact ⟨cursor, h.advance_eq_of_ended, h⟩
  | on position =>
    obtain ⟨previous, hfollows, -⟩ := hshows
    rw [Block.Cursor.advance, Block.Cursor.result_counted]
    exact Cursor.MirrorsOn.exists_advance h hreads hfollows

/-- A session with a reader that stands for a session with the block that it reads. -/
structure Session.Mirrors (reader : Reader) (session : Session) (shown : Block.Session) :
    Prop where
  reader_eq : session.reader = reader
  reads : session.reader.Reads shown.block
  mirrors : ∀ slot, (session.cursors.get slot).Mirrors session.reader (shown.cursors.get slot)
  shows : ∀ slot, ∃ walk, (shown.cursors.get slot).Shows shown.block walk

namespace Session.Mirrors

variable {session : Session} {shown : Block.Session}

theorem set
    (h : session.Mirrors reader shown) (slot : Nat) {cursor : Cursor} {found : Block.Cursor}
    (hmirrors : cursor.Mirrors session.reader found)
    (hshows : ∃ walk, found.Shows shown.block walk) (headers : Nat) :
    Session.Mirrors reader ⟨session.reader, session.cursors.set slot cursor⟩
      ⟨shown.block, shown.cursors.set slot found, headers⟩ := by
  refine ⟨h.reader_eq, h.reads, fun other => ?_, fun other => ?_⟩
  · rw [Slots.get_set, Slots.get_set]
    by_cases hother : other = slot
    · rw [if_pos hother, if_pos hother]
      exact hmirrors
    · rw [if_neg hother, if_neg hother]
      exact h.mirrors other
  · rw [Slots.get_set]
    by_cases hother : other = slot
    · rw [if_pos hother]
      exact hshows
    · rw [if_neg hother]
      exact h.shows other

theorem exists_put
    (h : session.Mirrors reader shown) (slot : Nat) {computed : Checked Cursor}
    {found : Counted Block.Cursor}
    (hcomputed : ∃ cursor, computed = pure cursor ∧
      cursor.Mirrors session.reader found.result)
    (hshows : ∃ walk, found.result.Shows shown.block walk) :
    ∃ next, (do return session.put slot (← computed)) = (pure ((shown.put slot found).1, next) :
        Checked (Answer × Session)) ∧
      next.Mirrors reader (shown.put slot found).2 := by
  obtain ⟨cursor, rfl, hmirrors⟩ := hcomputed
  refine ⟨(session.put slot cursor).2, ?_, h.set slot hmirrors hshows _⟩
  obtain ⟨walk, hwalk⟩ := hshows
  rw [pure_bind, Session.put, Block.Session.put, hmirrors.look_eq h.reads hwalk]

theorem exists_key
    (h : session.Mirrors reader shown) (slot : Nat) :
    ∃ next, session.step (.key slot) = pure ((shown.step (.key slot)).1, next) ∧
      next.Mirrors reader (shown.step (.key slot)).2 := by
  have hmirrors := h.mirrors slot
  obtain ⟨walk, hshows⟩ := h.shows slot
  simp only [Session.step, Block.Session.step]
  cases hcursor : shown.cursors.get slot with
  | ended damage =>
    rw [hcursor] at hmirrors
    rw [hmirrors.isOn_eq_false]
    exact ⟨session, rfl, h⟩
  | on position =>
    rw [hcursor] at hmirrors hshows
    obtain ⟨previous, hfollows, hwalk⟩ := hshows
    obtain ⟨kept, hkey, hkept⟩ := Cursor.MirrorsOn.exists_key hmirrors h.reads hfollows
    rw [Cursor.MirrorsOn.isOn_eq_true hmirrors h.reads hfollows, if_pos rfl, hkey, pure_bind]
    simp only [Block.key, Counted.result_bind, Counted.result_pure, hfollows.keyAt_eq]
    have hkept' : kept.Mirrors session.reader
        (.on (position.remember (position.entry.keyAfter previous))) := hkept
    exact ⟨_, rfl, h.set slot hkept' ⟨_, hfollows.remember_shows⟩ _⟩

theorem value_eq
    (h : session.Mirrors reader shown) (slot : Nat) :
    session.step (.value slot) = pure ((shown.step (.value slot)).1, session) := by
  have hmirrors := h.mirrors slot
  obtain ⟨walk, hshows⟩ := h.shows slot
  simp only [Session.step, Block.Session.step]
  cases hcursor : shown.cursors.get slot with
  | ended damage =>
    rw [hcursor] at hmirrors
    rw [hmirrors.isOn_eq_false]
    rfl
  | on position =>
    rw [hcursor] at hmirrors hshows
    obtain ⟨previous, hfollows, hwalk⟩ := hshows
    rw [Cursor.MirrorsOn.isOn_eq_true hmirrors h.reads hfollows, if_pos rfl,
      Cursor.MirrorsOn.value_eq hmirrors h.reads hfollows, pure_bind]
    rfl

theorem restartPoint_eq
    (h : session.Mirrors reader shown) (index : Nat) :
    session.step (.restartPoint index) =
      pure ((shown.step (.restartPoint index)).1, session) := by
  simp only [Session.step, Block.Session.step, ← h.reads.count_eq, Block.restartPoint]
  by_cases hindex : index < shown.block.restarts.size
  · rw [if_pos hindex, h.reads.restartPoint_eq hindex, pure_bind,
      Array.getElem?_eq_getElem hindex]
  · rw [if_neg hindex, Array.getElem?_eq_none (Nat.le_of_not_lt hindex)]

theorem keyAtRestart_eq
    (h : session.Mirrors reader shown) (index : Nat) :
    session.step (.keyAtRestart index) =
      pure ((shown.step (.keyAtRestart index)).1, session) := by
  simp only [Session.step, Block.Session.step, ← h.reads.count_eq, Block.keyAtRestart,
    Block.restartPoint]
  by_cases hindex : index < shown.block.restarts.size
  · rw [if_pos hindex, h.reads.keyAtRestart_eq hindex, pure_bind,
      Array.getElem?_eq_getElem hindex]
    simp only [bind, Except.bind, pure, Except.pure]
    cases shown.block.fullKeyAt index shown.block.restarts[index] <;> rfl
  · rw [if_neg hindex, Array.getElem?_eq_none (Nat.le_of_not_lt hindex)]
    rfl

theorem summary_eq
    (h : session.Mirrors reader shown) :
    session.step .summary = pure ((shown.step .summary).1, session) := by
  have hsize : session.reader.data.length = shown.block.size := by
    rw [h.reads.length_eq, Block.size, h.reads.size_eq, h.reads.count_eq, trailerSize,
      Nat.mul_comm]
  simp only [Session.step, Block.Session.step, Reader.describe, Block.describe, hsize,
    h.reads.count_eq, h.reads.order_eq]

theorem exists_walk
    (h : session.Mirrors reader shown) :
    ∃ next, session.step .walk = pure ((shown.step .walk).1, next) ∧
      next.Mirrors reader (shown.step .walk).2 := by
  obtain ⟨first, hfirst, hmirrors⟩ := h.reads.exists_first
  have hshows := startAt_shows shown.block 0
  have hwalk : shown.block.walk.result = shown.block.walkAt 0 [] := hshows.walkFrom_eq
  simp only [Session.step, Block.Session.step]
  rw [hfirst, pure_bind, hmirrors.walkFrom_eq h.reads hshows, pure_bind, hwalk]
  exact ⟨session, rfl, ⟨h.reader_eq, h.reads, h.mirrors, h.shows⟩⟩

/-- One operation: it ends without a slip, with the answer of the block. -/
theorem exists_step
    (h : session.Mirrors reader shown) (operation : Operation) :
    ∃ next, session.step operation = pure ((shown.step operation).1, next) ∧
      next.Mirrors reader (shown.step operation).2 := by
  cases operation with
  | summary => exact ⟨session, h.summary_eq, h⟩
  | restartPoint index =>
    refine ⟨session, h.restartPoint_eq index, ?_⟩
    simp only [Block.Session.step]
    split <;> exact h
  | keyAtRestart index =>
    refine ⟨session, h.keyAtRestart_eq index, ?_⟩
    simp only [Block.Session.step]
    split <;> exact h
  | walk => exact h.exists_walk
  | probe targets =>
    refine ⟨session, ?_, ⟨h.reader_eq, h.reads, h.mirrors, h.shows⟩⟩
    simp only [Session.step, Block.Session.step]
    rw [h.reads.probes_eq, pure_bind]
  | first slot => exact h.exists_put slot h.reads.exists_first ⟨_, startAt_shows ..⟩
  | atEnd slot =>
    exact h.exists_put slot ⟨_, rfl, session.reader.ended_mirrors⟩ ⟨⟨[], none⟩, rfl⟩
  | lowerBound slot target =>
    exact h.exists_put slot (h.reads.exists_lowerBound target) ⟨_, lowerBound_shows ..⟩
  | find slot target =>
    exact h.exists_put slot (h.reads.exists_find target) ⟨_, find_shows ..⟩
  | advance slot =>
    obtain ⟨walk, hshows⟩ := h.shows slot
    exact h.exists_put slot ((h.mirrors slot).exists_advance h.reads hshows)
      ⟨_, hshows.advance⟩
  | look slot =>
    obtain ⟨walk, hshows⟩ := h.shows slot
    refine ⟨session, ?_, h⟩
    simp only [Session.step, Block.Session.step, (h.mirrors slot).look_eq h.reads hshows]
  | key slot => exact h.exists_key slot
  | value slot =>
    refine ⟨session, h.value_eq slot, ?_⟩
    simp only [Block.Session.step]
    split <;> exact h
  | copy source target => exact ⟨_, rfl, h.set target (h.mirrors source) (h.shows source) _⟩
  | equal a b =>
    refine ⟨session, ?_, h⟩
    simp only [Session.step, Block.Session.step, (h.mirrors a).offset_eq h.reads,
      (h.mirrors b).offset_eq h.reads]

/-- All operations of a run. -/
theorem exists_run
    (h : session.Mirrors reader shown) (operations : List Operation) :
    ∃ final, session.run operations = pure ((shown.run operations).map Prod.fst, final) ∧
      final.Mirrors reader (shown.after operations) := by
  induction operations generalizing session shown with
  | nil => exact ⟨session, rfl, h⟩
  | cons operation operations ih =>
    obtain ⟨next, hstep, hnext⟩ := h.exists_step operation
    obtain ⟨final, hrun, hfinal⟩ := ih hnext
    refine ⟨final, ?_, hfinal⟩
    rw [Session.run, hstep, pure_bind]
    dsimp only
    rw [hrun, pure_bind]
    rfl

end Session.Mirrors

/-! ## Ended cursors -/

theorem eq_of_pure_eq
    {Result : Type} {a b : Result} (h : (pure a : Checked Result) = pure b) :
    a = b :=
  Except.ok.inj (Option.some.inj h)

theorem exists_of_bind_eq_pure
    {First Second : Type} {computed : Checked First} {next : First → Checked Second}
    {result : Second} (h : computed >>= next = pure result) :
    ∃ value, computed = pure value ∧ next value = pure result := by
  match computed, h with
  | some (.ok value), h => exact ⟨value, rfl, h⟩

/-- Whether an operation puts another cursor into a slot. -/
def replaces (slot : Nat) : Operation → Bool
  | .first other | .atEnd other | .lowerBound other _ | .find other _ => other = slot
  | .copy _ target => target = slot
  | _ => false

namespace Session

variable {session next : Session} {answer : Answer} {slot other : Nat}

theorem exists_of_put
    {computed : Checked Cursor}
    (h : (do return session.put other (← computed)) = (pure (answer, next) :
      Checked (Answer × Session))) :
    ∃ cursor, computed = pure cursor ∧
      next.cursors.get slot = if slot = other then cursor else session.cursors.get slot := by
  obtain ⟨cursor, hcomputed, hput⟩ := exists_of_bind_eq_pure h
  cases eq_of_pure_eq hput
  exact ⟨cursor, hcomputed, rfl⟩

theorem get_advance_of_ended
    (h : session.step (.advance other) = pure (answer, next))
    (hended : session.reader.isOn (session.cursors.get slot) = false) :
    next.cursors.get slot = session.cursors.get slot := by
  obtain ⟨cursor, hadvance, hget⟩ := exists_of_put h
  rw [hget]
  by_cases hslot : slot = other
  · rw [← hslot, Reader.advance, hended] at hadvance
    rw [if_pos hslot, eq_of_pure_eq hadvance]
  · rw [if_neg hslot]

theorem get_key_of_ended
    (h : session.step (.key other) = pure (answer, next))
    (hended : session.reader.isOn (session.cursors.get slot) = false) :
    next.cursors.get slot = session.cursors.get slot := by
  simp only [step] at h
  split at h
  · rename_i hon
    obtain ⟨found, -, hfound⟩ := exists_of_bind_eq_pure h
    cases eq_of_pure_eq hfound
    rw [Slots.get_set, if_neg]
    rintro rfl
    rw [hon] at hended
    cases hended
  · cases eq_of_pure_eq h
    rfl

/-- Nothing that is done in a session changes an ended cursor. -/
theorem get_step_of_ended
    {operation : Operation} (h : session.step operation = pure (answer, next))
    (hended : session.reader.isOn (session.cursors.get slot) = false)
    (hkept : replaces slot operation = false) :
    next.cursors.get slot = session.cursors.get slot := by
  cases operation with
  | advance other => exact get_advance_of_ended h hended
  | key other => exact get_key_of_ended h hended
  | atEnd other =>
    have hother : slot ≠ other := fun hsame => by simp [replaces, hsame] at hkept
    cases eq_of_pure_eq h
    exact if_neg hother
  | first other | lowerBound other target | find other target =>
    have hother : slot ≠ other := fun hsame => by simp [replaces, hsame] at hkept
    obtain ⟨cursor, -, hget⟩ := exists_of_put h
    rw [hget, if_neg hother]
  | copy source target =>
    have htarget : slot ≠ target := fun hsame => by simp [replaces, hsame] at hkept
    cases eq_of_pure_eq h
    rw [Slots.get_set, if_neg htarget]
  | restartPoint index =>
    simp only [step] at h
    split at h
    · obtain ⟨offset, -, hoffset⟩ := exists_of_bind_eq_pure h
      cases eq_of_pure_eq hoffset
      rfl
    · cases eq_of_pure_eq h
      rfl
  | keyAtRestart index =>
    simp only [step] at h
    split at h
    · obtain ⟨key, -, hkey⟩ := exists_of_bind_eq_pure h
      split at hkey <;> cases eq_of_pure_eq hkey <;> rfl
    · cases eq_of_pure_eq h
      rfl
  | walk =>
    obtain ⟨first, -, hfirst⟩ := exists_of_bind_eq_pure h
    obtain ⟨walk, -, hwalk⟩ := exists_of_bind_eq_pure hfirst
    cases eq_of_pure_eq hwalk
    rfl
  | probe targets =>
    obtain ⟨probes, -, hprobes⟩ := exists_of_bind_eq_pure h
    cases eq_of_pure_eq hprobes
    rfl
  | value other =>
    simp only [step] at h
    split at h
    · obtain ⟨value, -, hvalue⟩ := exists_of_bind_eq_pure h
      cases eq_of_pure_eq hvalue
      rfl
    · cases eq_of_pure_eq h
      rfl
  | summary | look other | equal a b =>
    cases eq_of_pure_eq h
    rfl

end Session

namespace Session.Mirrors

variable {session final : Session} {shown : Block.Session} {slot : Nat}

theorem get_run_of_ended
    (h : session.Mirrors reader shown) {operations : List Operation} {answers : List Answer}
    (hrun : session.run operations = pure (answers, final))
    (hended : reader.isOn (session.cursors.get slot) = false)
    (hkept : ∀ operation ∈ operations, replaces slot operation = false) :
    final.cursors.get slot = session.cursors.get slot := by
  induction operations generalizing session shown answers with
  | nil =>
    cases eq_of_pure_eq hrun
    rfl
  | cons operation operations ih =>
    obtain ⟨next, hstep, hnext⟩ := h.exists_step operation
    rw [Session.run, hstep, pure_bind] at hrun
    obtain ⟨⟨later, last⟩, hlater, hlast⟩ := exists_of_bind_eq_pure hrun
    cases eq_of_pure_eq hlast
    have hsame : next.cursors.get slot = session.cursors.get slot :=
      Session.get_step_of_ended hstep (h.reader_eq ▸ hended)
        (hkept operation List.mem_cons_self)
    rw [← hsame] at hended ⊢
    exact ih hnext hlater hended fun later hmember =>
      hkept later (List.mem_cons_of_mem _ hmember)

end Session.Mirrors

/-! ## Safety -/

/-- A cursor on an entry that can be moved on, asked and walked from. -/
structure Cursor.Readable (reader : Reader) (cursor : Cursor) : Prop where
  advance : ∃ next, reader.advance cursor = pure next ∧
    (reader.isOn next = false ∨ cursor.offset + 3 ≤ next.offset)
  key : ∃ key kept, reader.key cursor = pure (key, kept) ∧ key.length < reader.restartsOffset
  value : ∃ value, reader.value cursor.header = pure value
  walk : ∃ walk, reader.walkFrom cursor = pure walk ∧
    walk.visits.length ≤ reader.restartsOffset / 3

theorem Cursor.MirrorsOn.readable
    (h : cursor.MirrorsOn reader position) (hreads : reader.Reads block)
    (hfollows : position.Follows block previous) :
    cursor.Readable reader := by
  constructor
  · obtain ⟨next, hnext, hmirrors⟩ := h.exists_advance hreads hfollows
    refine ⟨next, hnext, ?_⟩
    cases hon : reader.isOn next with
    | false => exact Or.inl rfl
    | true => exact Or.inr (h.forward hfollows hmirrors hon)
  · obtain ⟨kept, hkey, -⟩ := h.exists_key hreads hfollows
    refine ⟨_, kept, hkey, ?_⟩
    rw [← hreads.size_eq]
    exact Nat.lt_of_lt_of_le hfollows.length_keyAfter_lt hfollows.nextOffset_le
  · exact ⟨_, h.value_eq hreads hfollows⟩
  · have hmirrors : cursor.Mirrors reader (.on position) := h
    have hwalk := hmirrors.walkFrom_eq hreads ⟨previous, hfollows, rfl⟩
    have hvisits := Walk.length_visits_ofRegion_le position.offset
      (block.entries.dropTo position.offset) previous
    have hregion : (block.entries.dropTo position.offset).length ≤ reader.restartsOffset := by
      rw [EntryRegion.length_dropTo, hreads.size_eq]
      exact Nat.sub_le _ _
    refine ⟨_, hwalk, ?_⟩
    rw [Nat.le_div_iff_mul_le (by decide), Nat.mul_comm]
    exact Nat.le_trans hvisits hregion

/-- A cursor of a session is readable, or it is at the end of the entries. -/
theorem Session.Mirrors.readable_or_ended
    {session : Session} {shown : Block.Session} (h : session.Mirrors reader shown) (slot : Nat) :
    (reader.isOn (session.cursors.get slot) = true ∧
        (session.cursors.get slot).Readable reader) ∨
      (reader.isOn (session.cursors.get slot) = false ∧
        (session.cursors.get slot).offset = reader.restartsOffset) := by
  have hreads := h.reads
  have hmirrors := h.mirrors slot
  obtain ⟨walk, hshows⟩ := h.shows slot
  rw [h.reader_eq] at hreads hmirrors
  cases hcursor : shown.cursors.get slot with
  | ended damage =>
    rw [hcursor] at hmirrors
    exact Or.inr ⟨hmirrors.isOn_eq_false, hmirrors.1⟩
  | on position =>
    rw [hcursor] at hmirrors hshows
    obtain ⟨previous, hfollows, -⟩ := hshows
    exact Or.inl ⟨hmirrors.isOn_eq_true hreads hfollows, hmirrors.readable hreads hfollows⟩

theorem Session.ofReader_mirrors
    (hreads : reader.Reads block) :
    (Session.ofReader reader).Mirrors reader (Block.Session.ofBlock block) := by
  refine ⟨rfl, hreads, fun slot => reader.ended_mirrors, fun slot => ⟨⟨[], none⟩, rfl⟩⟩

/-- Reading the contents of any block that is opened.  No operation slips or runs on without
end, and each answers what the block answers; a cursor on an entry is readable; and a cursor
that has ended is at the end of the entries, and it stays as it is whatever else is done. -/
theorem Session.exists_run_of_ofContents
    (order : Comparator) {contents : Bytes} {block : Block}
    (hsmall : contents.length < UInt32.size)
    (hopen : Block.ofContents order contents = .ok block) (operations : List Operation) :
    ∃ reader final,
      Reader.ofContents order contents = pure (.ok reader) ∧
      (Session.ofReader reader).run operations =
        pure (((Block.Session.ofBlock block).run operations).map Prod.fst, final) ∧
      ∀ slot, let cursor := final.cursors.get slot
        (reader.isOn cursor = true → cursor.Readable reader) ∧
        (reader.isOn cursor = false → cursor.offset = reader.restartsOffset ∧
          ∀ further : List Operation,
            (∀ operation ∈ further, replaces slot operation = false) →
            ∃ answers last, final.run further = pure (answers, last) ∧
              last.cursors.get slot = cursor) := by
  have hreads := Reader.reads_of_ofContents hsmall hopen
  have hreader := Reader.ofContents_eq order hsmall
  rw [hopen] at hreader
  obtain ⟨final, hrun, hfinal⟩ := (ofReader_mirrors hreads).exists_run operations
  refine ⟨_, final, hreader, hrun, fun slot => ?_⟩
  rcases hfinal.readable_or_ended slot with ⟨hon, hreadable⟩ | ⟨hended, hoffset⟩
  · refine ⟨fun _ => hreadable, fun hended => ?_⟩
    rw [hon] at hended
    cases hended
  · refine ⟨fun hon => ?_, fun _ => ⟨hoffset, ?_⟩⟩
    · rw [hended] at hon
      cases hon
    intro further hkept
    obtain ⟨last, hfurther, -⟩ := hfinal.exists_run further
    exact ⟨_, last, hfurther, hfinal.get_run_of_ended hfurther hended hkept⟩

/-- Three entries, of which the last shares more than there is, and restart points into the
middle of an entry and far behind the last one. -/
def strayContents : Bytes :=
  [0, 2, 1, 97, 98, 49, 1, 1, 1, 99, 50, 5, 1, 0, 100,
    0, 0, 0, 0, 7, 0, 0, 0, 200, 0, 0, 0, 3, 0, 0, 0]

theorem Session.exists_run_strayContents :
    ∃ reader final,
      Reader.ofContents ⟨"never", fun _ _ => .lt⟩ strayContents = pure (.ok reader) ∧
      (Session.ofReader reader).run
          [.first 0, .advance 0, .key 0, .advance 0, .keyAtRestart 2, .lowerBound 1 [98]] =
        pure ([.look ⟨true, 0, none⟩, .look ⟨true, 6, none⟩, .bytes [97, 99],
          .look ⟨false, 15, some (.sharedPastKey 11 5 2)⟩,
          .damaged (.offsetPastEntries 200 15),
          .look ⟨false, 15, some (.entryOverrun 7 100 5)⟩], final) := by
  have hopen : Block.ofContents ⟨"never", fun _ _ => .lt⟩ strayContents =
      .ok ⟨.ofBytes (strayContents.take 15), #[0, 7, 200], ⟨"never", fun _ _ => .lt⟩⟩ := rfl
  obtain ⟨reader, final, hreader, hrun, -⟩ := Session.exists_run_of_ofContents
    ⟨"never", fun _ _ => .lt⟩ (by decide) hopen
    [.first 0, .advance 0, .key 0, .advance 0, .keyAtRestart 2, .lowerBound 1 [98]]
  refine ⟨reader, final, hreader, hrun.trans ?_⟩
  have hanswers : ((Block.Session.ofBlock ⟨.ofBytes (strayContents.take 15), #[0, 7, 200],
      ⟨"never", fun _ _ => .lt⟩⟩).run
        [.first 0, .advance 0, .key 0, .advance 0, .keyAtRestart 2, .lowerBound 1 [98]]).map
          Prod.fst =
      [.look ⟨true, 0, none⟩, .look ⟨true, 6, none⟩, .bytes [97, 99],
        .look ⟨false, 15, some (.sharedPastKey 11 5 2)⟩, .damaged (.offsetPastEntries 200 15),
        .look ⟨false, 15, some (.entryOverrun 7 100 5)⟩] := by
    cbv
  rw [hanswers]

end LsmStore.Block.Indexed
