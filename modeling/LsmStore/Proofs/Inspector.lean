import LsmStore.Inspector
import LsmStore.Proofs.Block.GroupSearch
import LsmStore.Proofs.Block.RoundTrip
import LsmStore.Proofs.Text.Shown

/-!
# What the inspector prints

The inspector walks with a cursor that rebuilds keys when they are printed, counts the
headers on its way and prints as it goes.  What it prints is told here line by line, by
the eager walk over the block: no text between the line ends holds a line end of its own,
whatever the keys and values are, so the lines can be told apart again.
-/

namespace LsmStore

open Std

/-! ## Texts without line ends -/

namespace Text

/-- Whether a text stays on one line. -/
def OneLine (text : List Char) : Prop :=
  '\n' ∉ text

theorem OneLine.append
    {first second : List Char} (hfirst : OneLine first) (hsecond : OneLine second) :
    OneLine (first ++ second) := by
  intro hmem
  rcases List.mem_append.mp hmem with hmem | hmem
  · exact hfirst hmem
  · exact hsecond hmem

theorem OneLine.flatMap
    {α : Type} {items : List α} {texts : α → List Char} (h : ∀ item, OneLine (texts item)) :
    OneLine (items.flatMap texts) := by
  intro hmem
  obtain ⟨item, -, hmem⟩ := List.mem_flatMap.mp hmem
  exact h item hmem

theorem oneLine_decimal
    (number : Nat) :
    OneLine (Nat.toDigits 10 number) :=
  not_mem_toDigits (by decide) (fun _ => Nat.digitChar_ne '\n' rfl) number

theorem oneLine_escape
    (c : Char) :
    OneLine (escape c) := by
  have hcode : OneLine (escapeCode c) := by
    have hdigits : OneLine (Nat.toDigits 16 c.toNat) :=
      not_mem_toDigits (by decide) (fun _ => Nat.digitChar_ne '\n' rfl) c.toNat
    have hfront : OneLine ['\\', 'u', '\x7b'] := by simp [OneLine]
    have hback : OneLine ['\x7d'] := by simp [OneLine]
    exact hfront.append (hdigits.append hback)
  rw [escape]
  by_cases hnewline : c = '\n'
  · subst hnewline
    simp [OneLine]
  · split_ifs
    all_goals first | exact hcode | simp [OneLine, Ne.symm hnewline]

theorem oneLine_showBytes
    (bytes : Bytes) :
    OneLine (showBytes bytes) := by
  rw [showBytes]
  cases String.fromUTF8? bytes.toByteArray with
  | some text =>
    have hquote : OneLine ['"'] := by simp [OneLine]
    exact hquote.append ((OneLine.flatMap oneLine_escape).append hquote)
  | none => exact not_mem_hex (fun _ => Nat.digitChar_ne '\n' rfl) bytes

end Text

namespace Inspector

open Text

/-- The text that gives an entry: its offset, right-aligned in six places, and its key and its
value as they are shown. -/
def visitText (visit : Block.Visit) : List Char :=
  "  ".toList ++ (Nat.toDigits 10 visit.offset).leftpad 6 ' ' ++ "  ".toList ++
    showBytes visit.key ++ " => ".toList ++ showBytes visit.value

theorem entryText_eq
    (visit : Block.Visit) :
    entryText visit = visitText visit :=
  rfl

theorem oneLine_visitText
    (visit : Block.Visit) :
    OneLine (visitText visit) := by
  have hoffset : OneLine ((Nat.toDigits 10 visit.offset).leftpad 6 ' ') := by
    exact OneLine.append (by simp [OneLine]) (oneLine_decimal visit.offset)
  have hkey := oneLine_showBytes visit.key
  have hvalue := oneLine_showBytes visit.value
  have hblanks : OneLine "  ".toList := by simp [OneLine]
  have harrow : OneLine " => ".toList := by simp [OneLine]
  exact ((((hblanks.append hoffset).append hblanks).append hkey).append harrow).append hvalue

/-- A line end in a key does not end the line, and bytes that are no text are given in
hexadecimal. -/
example :
    entryText ⟨10, [97, 10, 98], [98, 255]⟩ = "      10  \"a\\nb\" => 62ff".toList := by
  decide

/-- The text that gives the sizes of a block. -/
def sizesText (size restarts : Nat) : List Char :=
  s!"  {size} bytes, {restarts} restart points".toList

/-- The text that counts what was printed. -/
def countsText (printed headers : Nat) : List Char :=
  s!"  {printed} entries printed, {headers} headers decoded".toList

theorem oneLine_sizesText
    (size restarts : Nat) :
    OneLine (sizesText size restarts) := by
  have hdigits := oneLine_decimal
  simp only [OneLine] at hdigits
  simp [OneLine, sizesText, toString, hdigits]

theorem oneLine_countsText
    (printed headers : Nat) :
    OneLine (countsText printed headers) := by
  have hdigits := oneLine_decimal
  simp only [OneLine] at hdigits
  simp [OneLine, countsText, toString, hdigits]

/-! ## Lines -/

/-- The lines of a text; what is behind the last line end counts as a line too. -/
def lines (text : String) : List (List Char) :=
  text.toList.splitOn '\n'

theorem splitOn_newline
    {texts : List (List Char)} (htexts : ∀ text ∈ texts, OneLine text) :
    (texts.flatMap fun text => text ++ ['\n']).splitOn '\n' = texts ++ [[]] := by
  induction texts with
  | nil => rfl
  | cons text texts ih =>
    obtain ⟨hfirst, hothers⟩ := List.forall_mem_cons.mp htexts
    have hinside : ∀ c ∈ text, (c == '\n') = false := by
      intro c hc
      rw [beq_eq_false_iff_ne]
      rintro rfl
      exact hfirst hc
    have hsplit := List.splitOnP_append_cons_of_forall_mem hinside '\n' (by simp)
      (texts.flatMap fun text => text ++ ['\n'])
    rw [List.flatMap_cons, List.append_assoc, List.singleton_append, List.splitOn, hsplit,
      ← List.splitOn, ih hothers, List.cons_append]

/-- The texts of the lines of a dump. -/
def Dump.texts (dump : Dump) : List (List Char) :=
  sizesText dump.size dump.restarts :: (dump.walk.visits.map visitText ++
    if dump.walk.damage? = none then [countsText dump.walk.visits.length dump.headers] else [])

theorem Dump.oneLine_texts
    (dump : Dump) :
    ∀ text ∈ dump.texts, OneLine text := by
  intro text htext
  rcases List.mem_cons.mp htext with rfl | htext
  · exact oneLine_sizesText _ _
  · rcases List.mem_append.mp htext with hentry | hcounts
    · obtain ⟨visit, -, rfl⟩ := List.mem_map.mp hentry
      exact oneLine_visitText visit
    · split at hcounts
      · rw [List.mem_singleton.mp hcounts]
        exact oneLine_countsText _ _
      · cases hcounts

theorem Dump.toList_headLine
    (dump : Dump) :
    dump.headLine.toList = sizesText dump.size dump.restarts ++ ['\n'] := by
  have hend : toString " restart points\n" = toString " restart points" ++ "\n" := rfl
  rw [headLine, hend, ← String.append_assoc, String.toList_append]
  rfl

theorem toList_footLine
    (printed headers : Nat) :
    (footLine printed headers).toList = countsText printed headers ++ ['\n'] := by
  have hend : toString " headers decoded\n" = toString " headers decoded" ++ "\n" := rfl
  rw [footLine, hend, ← String.append_assoc, String.toList_append]
  rfl

theorem toList_entryLine
    (visit : Block.Visit) :
    (entryLine visit).toList = entryText visit ++ ['\n'] := by
  have hend : "\n".toList = ['\n'] := rfl
  rw [entryLine, String.toList_append, String.toList_ofList, hend]

/-- Each entry that is printed is counted. -/
theorem Printout.printed_foldl_add
    (printout : Printout) (visits : List Block.Visit) :
    (visits.foldl add printout).printed = printout.printed + visits.length := by
  induction visits generalizing printout with
  | nil => rfl
  | cons visit visits ih =>
    rw [List.foldl_cons, ih, List.length_cons]
    exact Nat.add_right_comm printout.printed 1 visits.length

theorem Printout.toList_foldl_add
    (printout : Printout) (visits : List Block.Visit) :
    (visits.foldl add printout).text.toList =
      printout.text.toList ++ (visits.map visitText).flatMap fun text => text ++ ['\n'] := by
  induction visits generalizing printout with
  | nil => exact (List.append_nil _).symm
  | cons visit visits ih =>
    rw [List.foldl_cons, ih, add, String.toList_append, toList_entryLine, entryText_eq,
      List.append_assoc, List.map_cons, List.flatMap_cons]

theorem Dump.printed_printout
    (dump : Dump) :
    dump.printout.printed = dump.walk.visits.length := by
  rw [printout, Printout.printed_foldl_add, Nat.zero_add]

theorem Dump.toList_printout
    (dump : Dump) :
    dump.printout.text.toList =
      (sizesText dump.size dump.restarts :: dump.walk.visits.map visitText).flatMap
        fun text => text ++ ['\n'] := by
  rw [printout, Printout.toList_foldl_add, toList_headLine, List.flatMap_cons]

theorem Dump.toList_stdout
    (dump : Dump) :
    dump.report.stdout.toList = dump.texts.flatMap fun text => text ++ ['\n'] := by
  have hprinted := dump.toList_printout
  cases hdamage : dump.walk.damage? with
  | none =>
    have hstdout : dump.report.stdout =
        dump.printout.text ++ footLine dump.printout.printed dump.headers := by
      rw [report, hdamage]
    rw [hstdout, String.toList_append, hprinted, toList_footLine, printed_printout, texts,
      if_pos hdamage, ← List.cons_append, List.flatMap_append, List.flatMap_singleton]
  | some cause =>
    have hstdout : dump.report.stdout = dump.printout.text := by
      rw [report, hdamage]
      rfl
    have hcut : dump.walk.damage? ≠ none := by
      rw [hdamage]
      exact Option.some_ne_none cause
    rw [hstdout, hprinted, texts, if_neg hcut, List.append_nil]

/-! ## Reports -/

/-- What is told on standard error about damage. -/
def damageText (cause : Corruption) : String :=
  s!"[ERROR] Data corruption detected: {cause.detail}\n"

theorem failed_corruption
    (printed : String) (cause : Corruption) :
    failed printed (.corruption cause) = ⟨printed, damageText cause, 1⟩ := by
  have hfront : "[ERROR] " ++ "Data corruption detected: " =
      "[ERROR] Data corruption detected: " := rfl
  have hjoin : "[ERROR] " ++ ("Data corruption detected: " ++ cause.detail) =
      "[ERROR] Data corruption detected: " ++ cause.detail :=
    String.append_assoc.symm.trans (congrArg (· ++ cause.detail) hfront)
  exact congrArg (Report.mk printed · 1) (congrArg (· ++ "\n") hjoin)

/-- A report that gives, line by line, the sizes of a block, the entries of a walk over it and, if
the walk is not damaged, their number and that of the headers; otherwise it tells the damage. -/
structure Report.Lists
    (report : Report) (size restarts : Nat) (walk : Block.Walk) (headers : Nat) : Prop where
  lines_eq : lines report.stdout = sizesText size restarts :: (walk.visits.map visitText ++
    (if walk.damage? = none then [countsText walk.visits.length headers] else []) ++ [[]])
  stderr_eq : report.stderr = match walk.damage? with
    | none => ""
    | some cause => damageText cause
  exitCode_eq : report.exitCode = if walk.damage? = none then 0 else 1

theorem Dump.report_lists
    (dump : Dump) :
    dump.report.Lists dump.size dump.restarts dump.walk dump.headers := by
  constructor
  · rw [lines, dump.toList_stdout, splitOn_newline dump.oneLine_texts]
    rfl
  · rw [report]
    cases dump.walk.damage? with
    | none => rfl
    | some cause => exact congrArg Report.stderr (failed_corruption _ cause)
  · rw [report]
    cases dump.walk.damage? with
    | none => rfl
    | some cause => rfl

/-! ## Dumps -/

/-- Where a dump starts. -/
def startOf : Option Bytes → Block.Start
  | none => .first
  | some target => .lowerBound target

variable {block : Block} {contents : Bytes}

theorem walk_dump
    (block : Block) (seek? : Option Bytes) :
    (dump block seek?).walk = (startOf seek?).eagerWalk block := by
  cases seek? with
  | none => exact (Block.startAt_shows block 0).walkFrom_eq
  | some target => exact (Block.lowerBound_shows block target).walkFrom_eq

theorem headers_dump_none
    (block : Block) :
    (dump block none).headers = (block.walkAt 0 []).visits.length :=
  Block.headers_walk block

theorem headers_dump_some
    (block : Block) (target : Bytes) :
    (dump block (some target)).headers = (block.searchedWalk target).visits.length :=
  Block.headers_lowerBound block target

theorem offsets_eagerWalk
    (block : Block) (seek? : Option Bytes) :
    ((startOf seek?).eagerWalk block).visits.Pairwise fun first second =>
      first.offset < second.offset := by
  cases seek? with
  | none => exact (Block.Walk.offsets_ofRegion _ _ _).2
  | some target => exact Block.offsets_lowerBoundWalk block target

theorem inspect_lists
    (h : Block.ofContents Comparator.bytewise contents = .ok block) (seek? : Option Bytes) :
    (inspect (.ok contents) seek?).Lists contents.length block.restarts.size
      ((startOf seek?).eagerWalk block) (dump block seek?).headers := by
  have hreport : inspect (.ok contents) seek? = (dump block seek?).report := by
    rw [inspect, h]
  have hlists := (dump block seek?).report_lists
  rw [walk_dump] at hlists
  rw [hreport, ← Block.size_of_ofContents h]
  exact hlists

theorem inspect_of_error
    {cause : Corruption} (h : Block.ofContents Comparator.bytewise contents = .error cause)
    (seek? : Option Bytes) :
    inspect (.ok contents) seek? = ⟨"", damageText cause, 1⟩ := by
  rw [inspect, h]
  exact failed_corruption "" cause

theorem visits_eq_nil_of_lowerBound
    {target : Bytes} (h : (block.lowerBound target).result.isOn = false) :
    ((startOf (some target)).eagerWalk block).visits = [] := by
  have hshows := Block.lowerBound_shows block target
  cases hcursor : (block.lowerBound target).result with
  | on position =>
    rw [hcursor] at h
    cases h
  | ended damage =>
    rw [hcursor] at hshows
    exact congrArg Block.Walk.visits hshows

/-- The inspector reports what the contents of a file hold.  It succeeds exactly if they are opened
as a block and the walk from its start is not damaged.  If they are not opened, it tells the
damage and nothing else.  If they are, it prints the sizes and the entries of the walk, in the
order of their offsets and one on each line, and then either counts the lines of entries or tells
the damage.  For a block in good order, the entries printed from a seek key on are those that
are printed without it, from the first key on that is not less; and the headers that are counted
are the entries printed and, with a seek key, those of lesser keys from the restart point on at
which the search starts. -/
theorem report_tells_what_is_stored
    (contents : Bytes) :
    (∀ seek?,
      let report := inspect (.ok contents) seek?
      (report.exitCode = 0 ↔ ∃ block, Block.ofContents Comparator.bytewise contents = .ok block ∧
        ((startOf seek?).eagerWalk block).damage? = none) ∧
      (∀ cause, Block.ofContents Comparator.bytewise contents = .error cause →
        report = ⟨"", damageText cause, 1⟩) ∧
      ∀ block, Block.ofContents Comparator.bytewise contents = .ok block →
        let walk := (startOf seek?).eagerWalk block
        (walk.visits.Pairwise fun first second => first.offset < second.offset) ∧
        (∀ target ∈ seek?, (block.lowerBound target).result.isOn = false → walk.visits = []) ∧
        ∃ headers, report.Lists contents.length block.restarts.size walk headers) ∧
    ∀ block, Block.ofContents Comparator.bytewise contents = .ok block → block.WellFormed →
      let visits := block.walk.result.visits
      (inspect (.ok contents) none).Lists contents.length block.restarts.size ⟨visits, none⟩
        visits.length ∧
      ∀ target,
        let less := fun visit : Block.Visit =>
          Comparator.bytewise.compare visit.key target == .lt
        let printed := visits.dropWhile less
        ∃ start, (visits ≠ [] → block.SearchStart target start) ∧
          (inspect (.ok contents) (some target)).Lists contents.length block.restarts.size
            ⟨printed, none⟩
            (printed.length + visits.countP fun visit => start ≤ visit.offset && less visit) := by
  constructor
  · intro seek? report
    refine ⟨?_, fun cause hcause => inspect_of_error hcause seek?, ?_⟩
    · constructor
      · intro hexit
        cases hopened : Block.ofContents Comparator.bytewise contents with
        | error cause =>
          have hreport : report.exitCode = 1 :=
            congrArg Report.exitCode (inspect_of_error hopened seek?)
          rw [hreport] at hexit
          cases hexit
        | ok block =>
          refine ⟨block, rfl, ?_⟩
          by_contra hdamage
          have hcode := (inspect_lists hopened seek?).exitCode_eq
          rw [if_neg hdamage] at hcode
          cases hcode.symm.trans hexit
      · rintro ⟨block, hopened, hundamaged⟩
        have hcode := (inspect_lists hopened seek?).exitCode_eq
        rwa [if_pos hundamaged] at hcode
    · intro block hopened walk
      refine ⟨offsets_eagerWalk block seek?, ?_, _, inspect_lists hopened seek?⟩
      rintro target rfl hoff
      exact visits_eq_nil_of_lowerBound hoff
  · intro block hopened hwell visits
    obtain ⟨horder, -⟩ := Block.parts_of_ofContents hopened
    have hlawful : TransCmp block.order.compare := horder ▸ transCmp_bytewise
    constructor
    · have hlists := inspect_lists hopened none
      have hwalk : (startOf none).eagerWalk block = ⟨visits, none⟩ := hwell.walk_eq_visits
      rw [headers_dump_none, hwell.walk_eq_visits, hwalk] at hlists
      exact hlists
    · intro target less printed
      obtain ⟨start, hstart, hlength⟩ := hwell.length_searchedWalk target
      have hlists := inspect_lists hopened (some target)
      have hwalk : (startOf (some target)).eagerWalk block = ⟨printed, none⟩ := by
        have hfound := hwell.lowerBoundWalk_eq target
        rw [horder] at hfound
        exact hfound
      rw [headers_dump_some, hlength, hwalk, horder] at hlists
      exact ⟨start, hstart, hlists⟩

/-- The keys `a` with a line end, the same with a `b` behind it, `b`, and `b` before a byte that
is no text; the third entry is a restart point. -/
def lineEnds : Block.Layout where
  pairs := [([97, 10], []), ([97, 10, 98], [49]), ([98], [10]), ([98, 255], [])]
  entries := [⟨0, [97, 10], []⟩, ⟨2, [98], [49]⟩, ⟨0, [98], [10]⟩, ⟨1, [255], []⟩]
  restarts := [0, 10]
  stores := .cons (by decide) (.cons (by decide) (.cons (by decide) (.cons (by decide) (.nil _))))
  restarts_whole := by
    intro offset hoffset
    rcases List.mem_cons.mp hoffset with rfl | htail
    · exact ⟨[], _, _, rfl, rfl, rfl⟩
    · rw [List.mem_singleton.mp htail]
      exact ⟨[⟨0, [97, 10], []⟩, ⟨2, [98], [49]⟩], ⟨0, [98], [10]⟩, _, rfl, rfl, by cbv⟩
  fits := by cbv

theorem report_tells_what_is_stored_lineEnds :
    ∃ block, Block.ofContents Comparator.bytewise lineEnds.bytes = .ok block ∧
      block.WellFormed ∧
      (inspect (.ok lineEnds.bytes) none).Lists 31 2
        ⟨[⟨0, [97, 10], []⟩, ⟨5, [97, 10, 98], [49]⟩, ⟨10, [98], [10]⟩, ⟨15, [98, 255], []⟩], none⟩
        4 ∧
      (inspect (.ok lineEnds.bytes) (some [98, 97])).Lists 31 2
        ⟨[⟨15, [98, 255], []⟩], none⟩ 2 := by
  have hsorted : lineEnds.Sorted Comparator.bytewise := ⟨by decide, by decide, fun _ => rfl⟩
  have hopened := lineEnds.ofContents_eq Comparator.bytewise
  have hwell := hsorted.wellFormed
  have hvisits : (lineEnds.block Comparator.bytewise).walk.result.visits =
      [⟨0, [97, 10], []⟩, ⟨5, [97, 10, 98], [49]⟩, ⟨10, [98], [10]⟩, ⟨15, [98, 255], []⟩] := by
    rw [lineEnds.walk_block Comparator.bytewise]
    cbv
  have hlength : lineEnds.bytes.length = 31 := by cbv
  obtain ⟨-, hreports⟩ := report_tells_what_is_stored lineEnds.bytes
  obtain ⟨hall, hseeks⟩ := hreports _ hopened hwell
  obtain ⟨start, hstart, hseek⟩ := hseeks [98, 97]
  rw [hvisits, hlength] at hall hseek
  refine ⟨_, hopened, hwell, hall, ?_⟩
  have hchosen := hstart (by rw [hvisits]; exact List.cons_ne_nil _ _)
  have hfrom : start = 10 := by
    have hrestart : 10 ∈ (lineEnds.block Comparator.bytewise).restarts :=
      List.mem_toArray.mpr (by decide)
    have hlast : 10 ≤ start := by
      apply hchosen.last ⟨10, [98], [10]⟩ _ hrestart (by decide)
      rw [hvisits]
      decide
    have hmember : start ∈ [0, 10] := List.mem_toArray.mp hchosen.mem
    simp only [List.mem_cons, List.not_mem_nil, or_false] at hmember
    omega
  subst hfrom
  exact hseek

end Inspector

end LsmStore
