import Dropletfs.ConfLines
import Dropletfs.Precedence

/-!
# The configuration file as a whole

`fgets` cuts the file at its newlines and wherever its buffer is full, a NUL ends what a buffer
is read as, and `parse_file` takes the last character off each piece whatever it is. The
pieces are the lines of the file as long as these are short, without NUL and ended by a
newline. The parser survives the file when no assignment it comes to leaves the defined part
of the language.
-/

namespace Dropletfs

/-- Lines that are handed to `parse_line` one after the other, as long as it accepts them: those that are handed
over, and the outcome. -/
def parseLines (host : Host) : List CStr → ConfParser → List CStr × Exec (ConfParser × Bool)
  | [], p => ([], .done (p, true))
  | line :: lines, p =>
    match parseLine host line p with
    | .done (p', true) => (line :: (parseLines host lines p').1, (parseLines host lines p').2)
    | outcome => ([line], outcome)

/-- What `parse_file` leaves of the strings it reads. -/
def linesRead (content : List Char) : List CStr := (readStrings content).map List.dropLast

/-- The lines of a file with their newlines, of which the last may lack one. -/
def rawLines : List Char → List (List Char)
  | [] => []
  | c :: rest => if c = '\n' then [c] :: rawLines rest else extendFirst c (rawLines rest)

/-- A line without its newline. -/
def lineText (raw : List Char) : CStr := raw.takeWhile (· ≠ '\n')

/-- The lines of a file. -/
def fileLines (content : List Char) : List CStr := (rawLines content).map lineText

/-- The line fits in the buffer with its newline, which it has, and contains no NUL. -/
structure IsWhole (raw : List Char) : Prop where
  fits : raw.length < tmpstrMax
  noNul : '\x00' ∉ raw
  ended : raw.getLast? = some '\n'

/-- As long as the parser accepts the lines, the next one is whole. -/
def WholeLines (host : Host) : List (List Char) → ConfParser → Prop
  | [], _ => True
  | raw :: raws, p =>
    IsWhole raw ∧ ∀ p', parseLine host (lineText raw) p = .done (p', true) → WholeLines host raws p'

/-- The loop of `parse_file` hands the lines it reads to `parse_line`. -/
theorem parseStrings_eq (host : Host) (bufs : List CStr) (p : ConfParser) :
    parseStrings host bufs p = (parseLines host (bufs.map List.dropLast) p).2 := by
  induction bufs generalizing p with
  | nil => rfl
  | cons buf bufs ih =>
    rw [parseStrings, List.map_cons, parseLines]
    cases parseLine host buf.dropLast p with
    | blocked => rfl
    | undefined => rfl
    | done r =>
      obtain ⟨p', ok⟩ := r
      cases ok with
      | false => rfl
      | true => exact ih p'

/-- `parse_file` is the run of `parse_line` over the lines it reads. -/
theorem parseContent_eq (host : Host) (content : List Char) (s : Settings) :
    parseContent host content s =
      (parseLines host (linesRead content) ⟨s, [], 0, 0⟩).2 >>= fun (p, ok) => .done (p.settings, ok) := by
  rw [parseContent, parseStrings_eq]
  rfl

section Lines

/-- A line that is ended by a newline is the first of a file that starts with it. -/
theorem rawLines_line {line : List Char} (rest : List Char) (hline : '\n' ∉ line) :
    rawLines (line ++ '\n' :: rest) = (line ++ ['\n']) :: rawLines rest := by
  induction line with
  | nil => simp [rawLines]
  | cons c line ih =>
    rw [List.mem_cons, not_or] at hline
    rw [List.cons_append, rawLines, if_neg (Ne.symm hline.1), ih hline.2]
    rfl

/-- A file without newlines has one line. -/
theorem rawLines_last {line : List Char} (hline : '\n' ∉ line) (hne : line ≠ []) : rawLines line = [line] := by
  induction line with
  | nil => exact absurd rfl hne
  | cons c line ih =>
    rw [List.mem_cons, not_or] at hline
    rw [rawLines, if_neg (Ne.symm hline.1)]
    cases line with
    | nil => rfl
    | cons d line =>
      rw [ih hline.2 (List.cons_ne_nil _ _)]
      rfl

/-- Only the empty file has no lines. -/
theorem rawLines_eq_nil {content : List Char} (h : rawLines content = []) : content = [] := by
  by_cases hnewline : '\n' ∈ content
  · obtain ⟨line, rest, rfl, hline⟩ := List.eq_append_cons_of_mem hnewline
    rw [rawLines_line rest hline] at h
    cases h
  · by_contra hne
    rw [rawLines_last hnewline hne] at h
    cases h

/-- The text of a line that is ended by a newline. -/
theorem lineText_line {line : List Char} (hline : '\n' ∉ line) : lineText (line ++ ['\n']) = line := by
  have hall : ∀ c ∈ line, decide (c ≠ '\n') = true := by
    intro c hmem
    apply decide_eq_true
    rintro rfl
    exact hline hmem
  rw [lineText, List.takeWhile_append_of_pos hall]
  simp

/-- The text of a line without newline. -/
theorem lineText_last {line : List Char} (hline : '\n' ∉ line) : lineText line = line := by
  rw [lineText, List.takeWhile_eq_self_iff]
  intro c hmem
  apply decide_eq_true
  rintro rfl
  exact hline hmem

/-- `fgets` stops when the buffer is full or the file ends. -/
theorem fgetsAll_front (most : ℕ) {left : ℕ} {front rest : List Char} (hfront : '\n' ∉ front) (hne : front ≠ [])
    (hfits : front.length ≤ left) (hfull : front.length = left ∨ rest = []) :
    fgetsAll most left (front ++ rest) = front :: fgetsAll most most rest := by
  induction front generalizing left with
  | nil => exact absurd rfl hne
  | cons c front ih =>
    rw [List.mem_cons, not_or] at hfront
    rw [List.length_cons] at hfits hfull
    cases front with
    | nil =>
      by_cases hleft : left ≤ 1
      · rw [List.cons_append, fgetsAll, if_pos (.inr hleft)]
        rfl
      · obtain rfl : rest = [] := hfull.resolve_left (by simp at hfits ⊢; omega)
        have hnot : ¬(c = '\n' ∨ left ≤ 1) := not_or.mpr ⟨Ne.symm hfront.1, hleft⟩
        simp only [List.append_nil, fgetsAll, if_neg hnot]
        rfl
    | cons d front =>
      rw [List.length_cons] at hfits hfull
      have hnot : ¬(c = '\n' ∨ left ≤ 1) := not_or.mpr ⟨Ne.symm hfront.1, by omega⟩
      have hnext := @ih (left - 1) hfront.2 (List.cons_ne_nil _ _) (by rw [List.length_cons]; omega)
        (hfull.imp (fun h => by rw [List.length_cons]; omega) id)
      rw [List.cons_append, fgetsAll, if_neg hnot, hnext]
      rfl

/-- A whole line is read as it is. -/
theorem linesRead_whole {line : List Char} (rest : List Char) (hline : '\n' ∉ line)
    (hwhole : IsWhole (line ++ ['\n'])) : linesRead (line ++ '\n' :: rest) = line :: linesRead rest := by
  have hfits : line.length < tmpstrMax - 1 := by
    have hlength := hwhole.fits
    rw [List.length_append, List.length_singleton] at hlength
    omega
  have hread : linesRead (line ++ '\n' :: rest) = (cString (line ++ ['\n'])).dropLast :: linesRead rest := by
    rw [linesRead, readStrings, fgetsAll_line _ rest hline hfits]
    rfl
  rw [hread, cString_of_noNul hwhole.noNul, List.dropLast_concat]

/-- A line is not read as it is when it is longer than the buffer, or the file ends in it. -/
theorem linesRead_cut {line rest : List Char} (hline : '\n' ∉ line) (hne : line ≠ [])
    (hcut : tmpstrMax - 1 ≤ line.length ∨ rest = []) :
    ∃ cut others, linesRead (line ++ rest) = cut :: others ∧ cut ≠ line := by
  have hsplit : line ++ rest = line.take (tmpstrMax - 1) ++ (line.drop (tmpstrMax - 1) ++ rest) := by
    rw [← List.append_assoc, List.take_append_drop]
  have hmax : tmpstrMax = 2048 := rfl
  have hpositive : 0 < line.length := List.length_pos_of_ne_nil hne
  have hfront : '\n' ∉ line.take (tmpstrMax - 1) := fun hmem => hline (List.mem_of_mem_take hmem)
  have hlength : (line.take (tmpstrMax - 1)).length = min (tmpstrMax - 1) line.length := List.length_take
  have hfull : (line.take (tmpstrMax - 1)).length = tmpstrMax - 1 ∨ line.drop (tmpstrMax - 1) ++ rest = [] := by
    by_cases hlong : tmpstrMax - 1 ≤ line.length
    · exact .inl (by omega)
    · obtain rfl := hcut.resolve_left hlong
      rw [List.append_nil]
      exact .inr (List.drop_eq_nil_of_le (by omega))
  have hread := fgetsAll_front (tmpstrMax - 1) hfront (fun hnil => by simp [hnil] at hlength; omega)
    (by omega) hfull
  refine ⟨(cString (line.take (tmpstrMax - 1))).dropLast, linesRead (line.drop (tmpstrMax - 1) ++ rest), ?_, ?_⟩
  · rw [hsplit, linesRead, readStrings, hread]
    rfl
  · -- taking the last character off leaves less than the line
    intro heq
    have hshort : (cString (line.take (tmpstrMax - 1))).length ≤ (line.take (tmpstrMax - 1)).length :=
      (List.takeWhile_sublist _).length_le
    have hlost := congrArg List.length heq
    rw [List.length_dropLast] at hlost
    omega

/-- A line with a NUL is not read as it is either. -/
theorem linesRead_nul {line : List Char} (rest : List Char) (hline : '\n' ∉ line)
    (hfits : line.length < tmpstrMax - 1) (hnul : '\x00' ∈ line) :
    ∃ cut others, linesRead (line ++ '\n' :: rest) = cut :: others ∧ cut ≠ line := by
  refine ⟨(cString (line ++ ['\n'])).dropLast, linesRead rest, ?_, ?_⟩
  · rw [linesRead, readStrings, fgetsAll_line _ rest hline hfits]
    rfl
  · rintro heq
    rw [← heq] at hnul
    exact noNul_cString _ (List.dropLast_subset _ hnul)

/-- The first line of a file that is not whole is not read as it is. -/
theorem linesRead_head_ne {content raw : List Char} {raws : List (List Char)} (hraw : rawLines content = raw :: raws)
    (hwhole : ¬ IsWhole raw) : ∃ cut others, linesRead content = cut :: others ∧ cut ≠ lineText raw := by
  by_cases hnewline : '\n' ∈ content
  · obtain ⟨line, rest, rfl, hline⟩ := List.eq_append_cons_of_mem hnewline
    rw [rawLines_line rest hline] at hraw
    obtain ⟨rfl, -⟩ := List.cons.inj hraw
    rw [lineText_line hline]
    by_cases hlong : tmpstrMax - 1 ≤ line.length
    · have hne : line ≠ [] := by
        rintro rfl
        exact absurd hlong (by decide)
      exact linesRead_cut hline hne (.inl hlong)
    · have hfits : (line ++ ['\n']).length < tmpstrMax := by
        rw [List.length_append, List.length_singleton]
        omega
      have hnul : '\x00' ∈ line ++ ['\n'] := by
        by_contra hnone
        exact hwhole ⟨hfits, hnone, List.getLast?_concat⟩
      refine linesRead_nul rest hline (by omega) ?_
      rcases List.mem_append.mp hnul with hmem | hmem
      · exact hmem
      · exact absurd (List.mem_singleton.mp hmem) (by decide)
  · have hne : content ≠ [] := by
      rintro rfl
      cases hraw
    rw [rawLines_last hnewline hne] at hraw
    obtain ⟨rfl, -⟩ := List.cons.inj hraw
    rw [lineText_last hnewline]
    have hcut := linesRead_cut hnewline hne (.inr (rfl : ([] : List Char) = []))
    rwa [List.append_nil] at hcut

/-- A whole line that comes first, with the rest of the file. -/
theorem IsWhole.split {content raw : List Char} {raws : List (List Char)} (h : IsWhole raw)
    (hraw : rawLines content = raw :: raws) :
    ∃ line rest, content = line ++ '\n' :: rest ∧ '\n' ∉ line ∧ raw = line ++ ['\n'] ∧ raws = rawLines rest := by
  by_cases hnewline : '\n' ∈ content
  · obtain ⟨line, rest, rfl, hline⟩ := List.eq_append_cons_of_mem hnewline
    rw [rawLines_line rest hline] at hraw
    obtain ⟨rfl, rfl⟩ := List.cons.inj hraw
    exact ⟨line, rest, rfl, hline, rfl, rfl⟩
  · have hne : content ≠ [] := by
      rintro rfl
      cases hraw
    rw [rawLines_last hnewline hne] at hraw
    obtain ⟨rfl, -⟩ := List.cons.inj hraw
    exact absurd (List.mem_of_getLast? h.ended) hnewline

variable (host : Host)

/-- The lines of the file are handed to `parse_line` exactly when each of them is whole that the parser comes to. -/
theorem linesRead_iff (content : List Char) (p : ConfParser) :
    (parseLines host (linesRead content) p).1 = (parseLines host (fileLines content) p).1 ↔
      WholeLines host (rawLines content) p := by
  -- by induction on the lines that are left
  generalize hraws : rawLines content = raws
  induction raws generalizing content p with
  | nil =>
    obtain rfl := rawLines_eq_nil hraws
    exact ⟨fun _ => trivial, fun _ => rfl⟩
  | cons raw raws ih =>
    have hlines : fileLines content = lineText raw :: raws.map lineText := by rw [fileLines, hraws, List.map_cons]
    by_cases hwhole : IsWhole raw
    · obtain ⟨line, rest, rfl, hline, rfl, rfl⟩ := hwhole.split hraws
      rw [hlines, lineText_line hline, linesRead_whole rest hline hwhole, parseLines, parseLines, WholeLines,
        lineText_line hline]
      cases hrun : parseLine host line p with
      | blocked => simp [hwhole]
      | undefined => simp [hwhole]
      | done r =>
        obtain ⟨p', ok⟩ := r
        cases ok with
        | false => simp [hwhole]
        | true =>
          have hrest : (parseLines host (linesRead rest) p').1 = (parseLines host (fileLines rest) p').1 ↔
              WholeLines host (rawLines rest) p' := ih rest p' rfl
          have hsame : (rawLines rest).map lineText = fileLines rest := rfl
          simp only [hsame, List.cons.injEq, true_and, hrest, hwhole, Exec.done.injEq, Prod.mk.injEq, and_true]
          exact ⟨fun h p'' heq => heq ▸ h, fun h => h p' rfl⟩
    · obtain ⟨cut, others, hread, hcut⟩ := linesRead_head_ne hraws hwhole
      have hfirst : ∀ line lines, (parseLines host (line :: lines) p).1.head? = some line := by
        intro line lines
        rw [parseLines]
        split <;> rfl
      rw [hlines, hread, WholeLines]
      constructor
      · intro heq
        have hheads := congrArg List.head? heq
        rw [hfirst, hfirst] at hheads
        exact absurd (Option.some.inj hheads) hcut
      · intro h
        exact absurd h.1 hwhole

/-- A newline at the end of whole lines adds an empty line at most, which the parser passes over. -/
theorem parseLines_newline (content : List Char) (p : ConfParser) (h : WholeLines host (rawLines content) p) :
    (parseLines host (linesRead (content ++ ['\n'])) p).2 = (parseLines host (linesRead content) p).2 := by
  generalize hraws : rawLines content = raws at h
  induction raws generalizing content p with
  | nil =>
    obtain rfl := rawLines_eq_nil hraws
    rfl
  | cons raw raws ih =>
    obtain ⟨hwhole, hrest⟩ := h
    obtain ⟨line, rest, rfl, hline, rfl, rfl⟩ := hwhole.split hraws
    have hadded : line ++ '\n' :: rest ++ ['\n'] = line ++ '\n' :: (rest ++ ['\n']) := by simp
    rw [hadded, linesRead_whole _ hline hwhole, linesRead_whole _ hline hwhole, parseLines, parseLines]
    cases hrun : parseLine host line p with
    | blocked => rfl
    | undefined => rfl
    | done r =>
      obtain ⟨p', ok⟩ := r
      cases ok with
      | false => rfl
      | true =>
        rw [lineText_line hline] at hrest
        exact ih rest p' rfl (hrest p' hrun)

end Lines

/-- The lines of the file are what is parsed, and a newline more at its end makes no difference, exactly when each
line is whole that the parser comes to. -/
theorem parsed_lines_iff (host : Host) (content : List Char) (s : Settings) :
    ((parseLines host (linesRead content) ⟨s, [], 0, 0⟩).1 = (parseLines host (fileLines content) ⟨s, [], 0, 0⟩).1 ∧
      parseContent host (content ++ ['\n']) s = parseContent host content s) ↔
    WholeLines host (rawLines content) ⟨s, [], 0, 0⟩ := by
  have hlines := linesRead_iff host content ⟨s, [], 0, 0⟩
  constructor
  · intro h
    exact hlines.mp h.1
  · intro h
    refine ⟨hlines.mpr h, ?_⟩
    rw [parseContent_eq, parseContent_eq]
    exact congrArg (· >>= _) (parseLines_newline host content ⟨s, [], 0, 0⟩ h)

/-- A file of one setting whose last line lacks its newline: the value of the setting is cut off. -/
theorem last_value_cut :
    (parseLines Host.bare (linesRead "zlib_level=6".toList) ⟨Settings.factory Host.bare, [], 0, 0⟩).1 =
        ["zlib_level=".toList] ∧
      ¬ ((parseLines Host.bare (linesRead "zlib_level=6".toList) ⟨Settings.factory Host.bare, [], 0, 0⟩).1 =
          (parseLines Host.bare (fileLines "zlib_level=6".toList) ⟨Settings.factory Host.bare, [], 0, 0⟩).1 ∧
        parseContent Host.bare ("zlib_level=6".toList ++ ['\n']) (Settings.factory Host.bare) =
          parseContent Host.bare "zlib_level=6".toList (Settings.factory Host.bare)) := by
  have hread : (parseLines Host.bare (linesRead "zlib_level=6".toList) ⟨Settings.factory Host.bare, [], 0, 0⟩).1 =
      ["zlib_level=".toList] := rfl
  have hwritten : (parseLines Host.bare (fileLines "zlib_level=6".toList) ⟨Settings.factory Host.bare, [], 0, 0⟩).1 =
      ["zlib_level=6".toList] := rfl
  refine ⟨hread, ?_⟩
  rintro ⟨hsame, -⟩
  rw [hread, hwritten] at hsame
  exact absurd hsame (by decide)

/-- The constructor's state when it comes to the file. -/
theorem confSetFullCacheDir_made {host : Host} {rootDir : Option CStr} {s₀ s : Settings}
    (hdefault : confCtorDefault host rootDir = .done s₀) (hdir : confSetFullCacheDir host 0 s₀ = .done (s, true)) :
    Tracks host [] s ∧ host.mkdir 0 = true := by
  obtain ⟨hundefined, -⟩ | ⟨s₁, hdone, hfactory, -⟩ := confCtorDefault_factory host rootDir
  · rw [hundefined] at hdefault
    cases hdefault
  · obtain rfl := Exec.done.inj (hdone.symm.trans hdefault)
    rw [confSetFullCacheDir_factory host hfactory] at hdir
    obtain ⟨rfl, hmade⟩ := Prod.mk.inj (Exec.done.inj hdir)
    exact ⟨hfactory.tracks, hmade⟩

/-- The parser is followed through the lines it reads of any file. -/
theorem parseStrings_read (host : Host) (content : List Char) {s : Settings} (htracks : Tracks host [] s)
    (hmade : host.mkdir 0 = true) :
    Parsed host (reachedLines host [] (linesRead content)) (fun _ _ => True)
      (parseStrings host (readStrings content) ⟨s, [], 0, 0⟩) :=
  parseStrings_parsed host (readStrings content) (p := ⟨s, [], 0, 0⟩) htracks rfl rfl hmade

/-- The parser survives a file of any bytes exactly when each assignment it comes to is harmless. -/
theorem parsed_survives_iff (host : Host) (rootDir : Option CStr) (s₀ s : Settings) (content : List Char)
    (hdefault : confCtorDefault host rootDir = .done s₀) (hdir : confSetFullCacheDir host 0 s₀ = .done (s, true)) :
    (∃ result, parseContent host content s = .done result) ↔
      survives host [] (reachedLines host [] (linesRead content)) = true := by
  obtain ⟨htracks, hmade⟩ := confSetFullCacheDir_made hdefault hdir
  have hparsed := parseStrings_read host content htracks hmade
  unfold parseContent
  cases hrun : parseStrings host (readStrings content) ⟨s, [], 0, 0⟩ with
  | blocked => exact (hrun ▸ hparsed : Parsed host _ _ .blocked).elim
  | undefined =>
    have hdead : survives host [] (reachedLines host [] (linesRead content)) = false :=
      (hrun ▸ hparsed : Parsed host _ _ .undefined)
    rw [hdead]
    constructor
    · rintro ⟨result, hdone⟩
      cases hdone
    · intro h
      cases h
  | done r =>
    obtain ⟨p, ok⟩ := r
    obtain ⟨-, -, halive, -⟩ := (hrun ▸ hparsed : Parsed host _ _ (.done (p, ok)))
    exact ⟨fun _ => halive, fun _ => ⟨_, rfl⟩⟩

/-- A file with a key without `=`, an unknown key, an empty value and a NUL is survived. -/
theorem malformed_survived :
    ∃ result, parseContent Host.bare "unknown\n  zlib_level = \ncolor=\x00red\nmax_retry\n".toList
      { Settings.factory Host.bare with cacheDir := "/tmp/b".toList } = .done result :=
  (parsed_survives_iff Host.bare none (Settings.factory Host.bare)
    { Settings.factory Host.bare with cacheDir := "/tmp/b".toList }
    "unknown\n  zlib_level = \ncolor=\x00red\nmax_retry\n".toList rfl rfl).mpr (by decide +kernel)

/-- An empty level of the log is compared with the names of the levels as a null pointer. -/
theorem empty_level_crashes :
    confCtorDefault Host.bare none = .done (Settings.factory Host.bare) ∧
      confSetFullCacheDir Host.bare 0 (Settings.factory Host.bare) =
        .done ({ Settings.factory Host.bare with cacheDir := "/tmp/b".toList }, true) ∧
      ¬ ∃ result, parseContent Host.bare "log_level=\n".toList
        { Settings.factory Host.bare with cacheDir := "/tmp/b".toList } = .done result := by
  refine ⟨rfl, rfl, ?_⟩
  have hrun : parseContent Host.bare "log_level=\n".toList
      { Settings.factory Host.bare with cacheDir := "/tmp/b".toList } = .undefined := rfl
  rw [hrun]
  rintro ⟨result, hdone⟩
  cases hdone

end Dropletfs
