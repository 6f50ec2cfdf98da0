import InlineVariants.Command.Run
import Mathlib

/-!
# A run is all or nothing

A run that is complete has exit code 1 exactly if some source fails (`Fails`): it cannot be read, it
cannot be decoded, or its expansion reports an error. Then, or if the run only checks, the tree stays as
it was and no expanded text is printed, whatever the other sources came to. Else the expanded text is in
the output file, and no other file has changed, or the texts were printed in the order of the sources.
Every diagnostic of every source is reported in that order.

Not every run is complete. Besides a write that the tree refuses, a run breaks off when a path that it is
about to use holds NUL and when it is about to write to a file without a name (`BreaksOff`).

Files are read in any way whatsoever, so a file that is there may be refused for any reason, and the
arguments are read with either treatment of an attached `--`.

Main statement: `runIn_all_or_nothing`.
-/

namespace InlineVariants.Command

/-! ## What a write leaves behind -/

namespace FileTree

variable {t t' : FileTree} {place other : List String} {bytes : List UInt8}

theorem entry_eq_file : t.entry place = .file bytes ↔ t.files.lookup place = some bytes := by
  unfold entry
  cases t.files.lookup place with
  | none => by_cases hd : t.isDirectory place = true <;> simp [hd]
  | some b => simp

theorem entry_eq_directory : t.entry place = .directory ↔
    t.files.lookup place = none ∧ t.isDirectory place = true := by
  unfold entry
  cases t.files.lookup place with
  | none => by_cases hd : t.isDirectory place = true <;> simp [hd]
  | some b => simp

theorem lookup_put_self : (t.put place bytes).files.lookup place = some bytes := by
  simp [put]

theorem lookup_put_of_ne (h : other ≠ place) :
    (t.put place bytes).files.lookup other = t.files.lookup other := by
  have hfilter (files : List (List String × List UInt8)) :
      (files.filter fun entry => entry.1 != place).lookup other = files.lookup other := by
    induction files with
    | nil => rfl
    | cons file files ih =>
      by_cases hfile : file.1 = place
      · have hother : (other == file.1) = false := by simpa [hfile] using h
        rw [List.filter_cons_of_neg (by simp [hfile]), ih, List.lookup, hother]
      · rw [List.filter_cons_of_pos (by simpa using hfile), List.lookup, List.lookup, ih]
  have hother : (other == place) = false := by simpa using h
  rw [put, List.lookup, hother]
  exact hfilter t.files

/-- A directory on the way to a file is still on the way when the file has other bytes. -/
theorem isDirectory_put (h : t.isDirectory other = true) :
    (t.put place bytes).isDirectory other = true := by
  simp only [isDirectory, Bool.or_eq_true, List.any_eq_true] at h ⊢
  rcases h with h | ⟨file, hfile, hon⟩
  · exact .inl h
  · by_cases he : file.1 = place
    · exact .inr ⟨(place, bytes), List.mem_cons_self, he ▸ hon⟩
    · exact .inr ⟨file, List.mem_cons_of_mem _ (List.mem_filter.2 ⟨hfile, by simpa using he⟩), hon⟩

/-- Names that lead somewhere lead there as well once a file has been put where no directory is. -/
theorem follow_put (hplace : t.entry place ≠ .directory) {start stop names : List String}
    (h : t.follow start names = .ok stop) : (t.put place bytes).follow start names = .ok stop := by
  induction names generalizing start with
  | nil => exact h
  | cons name names ih =>
    rw [follow] at h ⊢
    cases hentry : t.entry start with
    | file | absent => simp [hentry] at h
    | directory =>
      have hne : start ≠ place := fun he => hplace (he ▸ hentry)
      have hentry' : (t.put place bytes).entry start = .directory := by
        obtain ⟨hnone, hdir⟩ := entry_eq_directory.1 hentry
        exact entry_eq_directory.2 ⟨(lookup_put_of_ne hne).trans hnone, isDirectory_put hdir⟩
      simp only [hentry, hentry'] at h ⊢
      split_ifs at h ⊢ with hup hlong
      · exact ih h
      · exact ih h

theorem locate_put (hplace : t.entry place ≠ .directory) {path : Path} {stop : List String}
    (h : t.locate path = .ok stop) : (t.put place bytes).locate path = .ok stop := by
  unfold locate at h ⊢
  split_ifs at h ⊢
  exact follow_put hplace h

theorem files_makeAt (h : t.makeAt place = .ok t') : t'.files = t.files := by
  unfold makeAt at h
  split at h
  · cases h
  · obtain rfl := Except.ok.inj h
    rfl
  · obtain rfl := Except.ok.inj h
    rfl

theorem files_makeAlong {root : String} {passed names : List String}
    (h : t.makeAlong root passed place names = .ok t') : t'.files = t.files := by
  induction names generalizing t passed place with
  | nil =>
    obtain rfl := Except.ok.inj h
    rfl
  | cons name names ih =>
    rw [makeAlong] at h
    split_ifs at h with hup
    · exact ih h
    · cases hmade : t.makeAt (place ++ [name]) with
      | error fault => simp [hmade] at h
      | ok made =>
        simp only [hmade] at h
        exact (ih h).trans (files_makeAt hmade)

/-- Making directories touches no file. -/
theorem files_makeDirectories {path : Path} (h : t.makeDirectories path = .ok t') :
    t'.files = t.files := by
  unfold makeDirectories at h
  split at h
  · split_ifs at h
    exact files_makeAlong h
  · rename_i place _
    cases hmade : t.makeAt place with
    | error fault => simp [hmade, Except.mapError] at h
    | ok made =>
      obtain rfl : made = t' := by simpa [hmade, Except.mapError] using h
      exact files_makeAt hmade

/-- After a write, the path leads to a file with the bytes, and all other files are as before. -/
theorem write_eq_ok {path : Path} (h : t.write path bytes = .ok t') :
    ∃ place, t'.locate path = .ok place ∧ ∀ other b,
      t'.entry other = .file b ↔ if other = place then b = bytes else t.entry other = .file b := by
  unfold write at h
  cases hmade : t.makeDirectories path.parent with
  | error e => simp [hmade, bind, Except.bind] at h
  | ok made =>
    simp only [hmade, bind, Except.bind] at h
    split at h
    · cases h
    · rename_i place hplace
      split at h
      · cases h
      · rename_i hentry
        obtain rfl := Except.ok.inj h
        refine ⟨place, locate_put hentry hplace, fun other b => ?_⟩
        by_cases hother : other = place
        · rw [if_pos hother, hother, entry_eq_file, lookup_put_self, Option.some.injEq, eq_comm]
        · rw [if_neg hother, entry_eq_file, entry_eq_file, lookup_put_of_ne hother,
            files_makeDirectories hmade]

end FileTree

/-! ## Sources -/

/-- A source cannot be read, or its bytes cannot be decoded. -/
def Unreadable (readFile : ReadFile) (source reason : String) : Prop :=
  (∃ fault, readFile (.ofText source) = .error fault ∧
    reason = FileError.message ⟨fault, .ofText source⟩) ∨
  ∃ bytes e, readFile (.ofText source) = .ok bytes ∧ Text.Utf8.decode bytes = .error e ∧
    reason = e.message

/-- A source is read, decoded and expanded. -/
def Expands (readFile : ReadFile) (tag source : String) (e : Expansion) : Prop :=
  ∃ bytes cs, readFile (.ofText source) = .ok bytes ∧ Text.Utf8.decode bytes = .ok cs ∧
    expandSource (Text.unifyNewlines cs) (some (Path.ofText source).text) tag = e

/-- A source fails the run. -/
def Fails (readFile : ReadFile) (tag source : String) : Prop :=
  (∃ reason, Unreadable readFile source reason) ∨
    ∃ e, Expands readFile tag source e ∧ ∃ d ∈ e.diagnostics, d.isError = true

/-- A source comes to its expansion, or to a diagnostic that says why it cannot be read. -/
def Yields (readFile : ReadFile) (tag source : String) (s : SourceOutcome) : Prop :=
  s.path = .ofText source ∧
    ((∃ e, s.result = .ok e ∧ Expands readFile tag source e) ∨
      ∃ reason, s.result = .error (unreadable s.path reason) ∧ Unreadable readFile source reason)

section Sources

variable {readFile : ReadFile} {tag source : String}

theorem expandFile_yields (readFile : ReadFile) (tag source : String) :
    Yields readFile tag source (expandFile readFile tag (.ofText source)) := by
  refine ⟨rfl, ?_⟩
  unfold expandFile readText
  cases hread : readFile (.ofText source) with
  | error fault => exact .inr ⟨_, rfl, .inl ⟨fault, hread, rfl⟩⟩
  | ok bytes =>
    cases hdecode : Text.Utf8.decode bytes with
    | error e => exact .inr ⟨_, by simp [hdecode, Except.map], .inr ⟨bytes, e, hread, hdecode, rfl⟩⟩
    | ok cs => exact .inl ⟨_, by simp [hdecode, Except.map], bytes, cs, hread, hdecode, rfl⟩

theorem Expands.unique {e e' : Expansion} (h : Expands readFile tag source e)
    (h' : Expands readFile tag source e') : e = e' := by
  obtain ⟨bytes, cs, hread, hdecode, rfl⟩ := h
  obtain ⟨bytes', cs', hread', hdecode', rfl⟩ := h'
  obtain rfl := Except.ok.inj (hread.symm.trans hread')
  obtain rfl := Except.ok.inj (hdecode.symm.trans hdecode')
  rfl

theorem Unreadable.not_expands {reason : String} (h : Unreadable readFile source reason) (e : Expansion) :
    ¬ Expands readFile tag source e := by
  rintro ⟨bytes, cs, hread, hdecode, -⟩
  rcases h with ⟨fault, hfault, -⟩ | ⟨bytes', e', hread', herror, -⟩
  · cases hread.symm.trans hfault
  · obtain rfl := Except.ok.inj (hread.symm.trans hread')
    cases hdecode.symm.trans herror

/-- A source fails exactly if there is an error among its diagnostics. -/
theorem Yields.anyError_iff {s : SourceOutcome} (h : Yields readFile tag source s) :
    Diagnostic.anyError s.diagnostics = true ↔ Fails readFile tag source := by
  obtain ⟨-, ⟨e, hresult, hexpands⟩ | ⟨reason, hresult, hreason⟩⟩ := h
  · have hiff : (∃ d ∈ e.diagnostics, d.isError = true) ↔ Fails readFile tag source := by
      refine ⟨fun hd => .inr ⟨e, hexpands, hd⟩, ?_⟩
      rintro (⟨reason, hreason⟩ | ⟨e', hexpands', hd⟩)
      · exact absurd hexpands (hreason.not_expands e)
      · exact hexpands.unique hexpands' ▸ hd
    simpa [SourceOutcome.diagnostics, hresult, Diagnostic.anyError] using hiff
  · have hfails : Fails readFile tag source := .inl ⟨reason, hreason⟩
    have herror : (unreadable s.path reason).isError = true := rfl
    simp [SourceOutcome.diagnostics, hresult, Diagnostic.anyError, herror, hfails]

/-- A source that does not fail is expanded. -/
theorem Yields.exists_expands {s : SourceOutcome} (h : Yields readFile tag source s)
    (hpass : ¬ Fails readFile tag source) : ∃ e, s.expansion? = some e ∧ Expands readFile tag source e := by
  obtain ⟨-, ⟨e, hresult, hexpands⟩ | ⟨reason, -, hreason⟩⟩ := h
  · exact ⟨e, by simp [SourceOutcome.expansion?, hresult, Except.toOption], hexpands⟩
  · exact absurd (.inl ⟨reason, hreason⟩) hpass

end Sources

/-! ## All sources of a run -/

section Outcomes

variable {readFile : ReadFile} {tag : String} {sources : List String} {outcomes : List SourceOutcome}

/-- What the sources come to, one by one. -/
def outcomesOf (readFile : ReadFile) (a : Arguments) : List SourceOutcome :=
  (a.sources.map Path.ofText).map (expandFile readFile a.tag)

theorem outcomesOf_yields (readFile : ReadFile) (a : Arguments) :
    List.Forall₂ (Yields readFile a.tag) a.sources (outcomesOf readFile a) := by
  rw [outcomesOf, List.map_map, List.forall₂_map_right_iff, List.forall₂_same]
  exact fun source _ => expandFile_yields readFile a.tag source

theorem anyFailed_iff (h : List.Forall₂ (Yields readFile tag) sources outcomes) :
    anyFailed outcomes = true ↔ ∃ source ∈ sources, Fails readFile tag source := by
  unfold anyFailed
  induction h with
  | nil => simp
  | cons hfirst _ ih => simp [hfirst.anyError_iff, ih]

/-- Sources of which none fails are printed one after the other. -/
theorem expandedText_eq (h : List.Forall₂ (Yields readFile tag) sources outcomes)
    (hpass : ∀ source ∈ sources, ¬ Fails readFile tag source) :
    ∃ es, List.Forall₂ (Expands readFile tag) sources es ∧ expandedText outcomes = es.flatMap Expansion.text := by
  unfold expandedText
  induction h with
  | nil => exact ⟨[], .nil, rfl⟩
  | cons hfirst _ ih =>
    obtain ⟨hpass, hothers⟩ := List.forall_mem_cons.1 hpass
    obtain ⟨e, he, hexpands⟩ := hfirst.exists_expands hpass
    obtain ⟨es, hes, htext⟩ := ih hothers
    exact ⟨e :: es, .cons hexpands hes, by simp [he, htext]⟩

theorem writes_iff (readFile : ReadFile) (a : Arguments) : writes a (outcomesOf readFile a) = true ↔
    (∀ source ∈ a.sources, ¬ Fails readFile a.tag source) ∧ a.check = false := by
  have hfailed := anyFailed_iff (outcomesOf_yields readFile a)
  simp only [writes, Bool.and_eq_true, Bool.not_eq_true', ← Bool.not_eq_true, hfailed]
  simp

end Outcomes

/-- An output file asks for exactly one source. -/
theorem Arguments.parse_output {words : List String} {dashes : AttachedDashes} {a : Arguments}
    (h : Arguments.parse words dashes = .ok a) (houtput : a.output ≠ .standard) :
    ∃ source, a.sources = [source] := by
  unfold Arguments.parse at h
  cases hwords : classifyAll words with
  | error stop => simp [hwords, bind, Except.bind] at h
  | ok ws =>
    cases hread : Arguments.read dashes {} .before false ws with
    | error stop => simp [hwords, hread, bind, Except.bind] at h
    | ok b =>
      simp only [hwords, hread, bind, Except.bind] at h
      split_ifs at h with hrefused
      obtain rfl := Except.ok.inj h
      have hlength : b.sources.length = 1 := by simpa [houtput] using hrefused
      exact List.length_eq_one_iff.1 hlength

/-! ## Runs -/

/-- The output file cannot be named to the operating system. -/
def Output.Nameless (output : Output) : Prop :=
  output = .unnamed ∨ ∃ name, output = .file name ∧ (Path.ofText name).holdsNul = true

/-- A run breaks off: the path of a source holds NUL, or the run is about to write and the output file has
no name. -/
def BreaksOff (readFile : ReadFile) (a : Arguments) : Prop :=
  (∃ source ∈ a.sources, (Path.ofText source).holdsNul = true) ∨
    ((∀ source ∈ a.sources, ¬ Fails readFile a.tag source) ∧ a.check = false ∧ a.output.Nameless)

section Runs

variable {words : List String} {dashes : AttachedDashes} {a : Arguments} {readFile : ReadFile}
  {log : Option String}

/-- Where only the output file can be in the way. -/
theorem breaksOff_iff (hnul : ¬ (a.sources.map Path.ofText).any Path.holdsNul = true) :
    BreaksOff readFile a ↔ writes a (outcomesOf readFile a) = true ∧ a.output.Nameless := by
  have hsources : ¬ ∃ source ∈ a.sources, (Path.ofText source).holdsNul = true := by
    simpa using hnul
  rw [writes_iff, BreaksOff, and_assoc]
  exact ⟨fun h => h.resolve_left hsources, .inr⟩

theorem run_eq (ha : Arguments.parse words dashes = .ok a)
    (hnul : ¬ (a.sources.map Path.ofText).any Path.holdsNul = true) :
    run words log readFile dashes = do
      let output ← if writes a (outcomesOf readFile a) then a.output.path? else .ok none
      return report a (logShows log) (outcomesOf readFile a) output := by
  unfold run runWith
  rw [ha]
  simp only [hnul, Bool.false_eq_true, if_false]
  rfl

/-- A run breaks off, or it has a report and leaves the tree alone, or it has a report if the output file
can be written. -/
theorem runIn_cases (ha : Arguments.parse words dashes = .ok a) (readFile : ReadFile) (tree : FileTree)
    (log : Option String) :
    (BreaksOff readFile a ∧ ∃ reason, runIn tree words log readFile dashes = .interrupted reason) ∨
    (¬ BreaksOff readFile a ∧ (writes a (outcomesOf readFile a) = true → a.output = .standard) ∧
      runIn tree words log readFile dashes =
        .completed (report a (logShows log) (outcomesOf readFile a) none) tree) ∨
    (¬ BreaksOff readFile a ∧ writes a (outcomesOf readFile a) = true ∧ ∃ name, a.output = .file name ∧
      runIn tree words log readFile dashes =
        match tree.write (.ofText name) (Text.Utf8.encode (expandedText (outcomesOf readFile a))) with
        | .ok tree' =>
          .completed (report a (logShows log) (outcomesOf readFile a) (some (.ofText name))) tree'
        | .error e => .refused e) := by
  by_cases hnul : (a.sources.map Path.ofText).any Path.holdsNul = true
  · refine .inl ⟨.inl (by simpa using hnul), .nul, ?_⟩
    simp only [runIn, run, ha, runWith, hnul, if_true]
    rfl
  rw [breaksOff_iff hnul, runIn, run_eq ha hnul]
  by_cases hwrites : writes a (outcomesOf readFile a) = true
  · simp only [hwrites, if_true, true_and]
    cases houtput : a.output with
    | standard =>
      refine .inr (.inl ⟨?_, fun _ => rfl, rfl⟩)
      rintro (h | ⟨_, h, -⟩) <;> cases h
    | unnamed => exact .inl ⟨.inl rfl, .unnamedOutput, rfl⟩
    | file name =>
      by_cases hname : (Path.ofText name).holdsNul = true
      · exact .inl ⟨.inr ⟨name, rfl, hname⟩, .nul, by simp only [Output.path?, hname, if_true]; rfl⟩
      · refine .inr (.inr ⟨?_, name, rfl, by simp only [Output.path?, hname]; rfl⟩)
        rintro (h | ⟨_, h, hnul'⟩)
        · cases h
        · cases h
          exact hname hnul'
  · refine .inr (.inl ⟨fun h => hwrites h.1, fun h => absurd h hwrites, ?_⟩)
    simp only [hwrites]
    rfl

end Runs

/-- The only source is expanded, and the tree refuses to hold the text in the output file. -/
def Refuses (readFile : ReadFile) (tree : FileTree) (a : Arguments) (error : FileError) : Prop :=
  ∃ source e name, a.sources = [source] ∧ a.output = .file name ∧ a.check = false ∧
    ¬ Fails readFile a.tag source ∧ Expands readFile a.tag source e ∧
    tree.write (.ofText name) (Text.Utf8.encode e.text) = .error error

/-- What a complete run has done. -/
structure AllOrNothing (readFile : ReadFile) (tree : FileTree) (a : Arguments) (log : Option String)
    (r : Report) (tree' : FileTree) : Prop where
  failed : r.exitCode = 1 ↔ ∃ source ∈ a.sources, Fails readFile a.tag source
  passed : r.exitCode = 0 ↔ ∀ source ∈ a.sources, ¬ Fails readFile a.tag source
  kept : r.exitCode = 1 ∨ a.check = true → tree' = tree ∧ (a.json = false → r.stdout = [])
  /-- The output file holds the text of the only source, and every other file is as before. -/
  saved : r.exitCode = 0 → a.check = false → ∀ name, a.output = .file name →
    (a.json = false → r.stdout = []) ∧
    ∃ source e place, a.sources = [source] ∧ Expands readFile a.tag source e ∧
      tree'.read (.ofText name) = .ok (Text.Utf8.encode e.text) ∧
      tree'.locate (.ofText name) = .ok place ∧ ∀ other bytes, other ≠ place →
        (tree'.entry other = .file bytes ↔ tree.entry other = .file bytes)
  printed : r.exitCode = 0 → a.check = false → a.output = .standard → tree' = tree ∧
    (a.json = false → ∃ es, List.Forall₂ (Expands readFile a.tag) a.sources es ∧
      r.stdout = es.flatMap Expansion.text)
  /-- All diagnostics are in the report, in the order of the sources: on lines of their own, or in a JSON
  object that is all of the output. -/
  reported : ∃ outcomes, List.Forall₂ (Yields readFile a.tag) a.sources outcomes ∧
    (a.json = false → r.stderr = (if logShows log then logText outcomes else []) ++
      outcomes.flatMap fun s => s.diagnostics.flatMap fun d =>
        (d.render (some s.path.text)).toList ++ ['\n']) ∧
    (a.json = true → r.stdout = (Json.object
      [("exit_code", .number r.exitCode),
       ("diagnostics", .array (outcomes.flatMap fun s => s.diagnostics.map s.diagnosticJson)),
       ("functions", .array (outcomes.flatMap fun s =>
         ((s.expansion?.map Expansion.functions).getD []).map s.functionJson))]).text ++ ['\n'])

section Reports

variable {words : List String} {dashes : AttachedDashes} {a : Arguments} {readFile : ReadFile}
  {tree tree' : FileTree} {log : Option String}

theorem report_exitCode (readFile : ReadFile) (a : Arguments) (showLog : Bool) (output : Option Path) :
    ((report a showLog (outcomesOf readFile a) output).exitCode = 1 ↔
      ∃ source ∈ a.sources, Fails readFile a.tag source) ∧
    ((report a showLog (outcomesOf readFile a) output).exitCode = 0 ↔
      ∀ source ∈ a.sources, ¬ Fails readFile a.tag source) := by
  have hnone : (∀ source ∈ a.sources, ¬ Fails readFile a.tag source) ↔
      ¬ ∃ source ∈ a.sources, Fails readFile a.tag source := by simp
  rw [hnone, ← anyFailed_iff (outcomesOf_yields readFile a), report]
  cases anyFailed (outcomesOf readFile a) <;> simp

/-- A report says the same of the sources wherever the texts go. -/
theorem report_reported (readFile : ReadFile) (a : Arguments) (showLog : Bool) (output : Option Path) :
    let r := report a showLog (outcomesOf readFile a) output
    (a.json = false → r.stderr = (if showLog then logText (outcomesOf readFile a) else []) ++
      (outcomesOf readFile a).flatMap SourceOutcome.lines) ∧
    (a.json = true → r.stdout = (reportJson r.exitCode (outcomesOf readFile a)).text ++ ['\n']) := by
  refine ⟨fun hjson => ?_, fun hjson => ?_⟩
  · simp [report, hjson]
  · simp [report, hjson]

/-- A run that leaves the tree alone. -/
theorem allOrNothing_of_none
    (houtput : writes a (outcomesOf readFile a) = true → a.output = .standard) :
    AllOrNothing readFile tree a log (report a (logShows log) (outcomesOf readFile a) none) tree where
  failed := (report_exitCode readFile a _ _).1
  passed := (report_exitCode readFile a _ _).2
  kept h := by
    have hwrites : writes a (outcomesOf readFile a) = false := by
      rw [← Bool.not_eq_true, writes_iff, ← (report_exitCode readFile a (logShows log) none).2]
      rintro ⟨hcode, hcheck⟩
      rcases h with h | h
      · exact absurd (hcode.symm.trans h) (by decide)
      · exact absurd (hcheck.symm.trans h) (by decide)
    exact ⟨rfl, fun hjson => by simp [report, hwrites, hjson]⟩
  saved hcode hcheck name hname := by
    have hwrites := (writes_iff readFile a).2 ⟨(report_exitCode readFile a _ _).2.1 hcode, hcheck⟩
    cases hname.symm.trans (houtput hwrites)
  printed hcode hcheck _ := by
    have hpass := (report_exitCode readFile a _ _).2.1 hcode
    have hwrites := (writes_iff readFile a).2 ⟨hpass, hcheck⟩
    obtain ⟨es, hes, htext⟩ := expandedText_eq (outcomesOf_yields readFile a) hpass
    exact ⟨rfl, fun hjson => ⟨es, hes, by simp [report, hwrites, hjson, htext]⟩⟩
  reported := ⟨outcomesOf readFile a, outcomesOf_yields readFile a, report_reported readFile a _ _⟩

/-- The text that is written is that of the only source. -/
theorem expandedText_single {source : String} (hsource : a.sources = [source])
    (hwrites : writes a (outcomesOf readFile a) = true) :
    ∃ e, Expands readFile a.tag source e ∧ expandedText (outcomesOf readFile a) = e.text := by
  obtain ⟨hpass, -⟩ := (writes_iff readFile a).1 hwrites
  obtain ⟨es, hes, htext⟩ := expandedText_eq (outcomesOf_yields readFile a) hpass
  rw [hsource] at hes
  cases hes with
  | cons hfirst hrest =>
    cases hrest
    exact ⟨_, hfirst, by rw [htext, List.flatMap_singleton]⟩

/-- A run that writes the output file. -/
theorem allOrNothing_of_write {source name : String} (hsource : a.sources = [source])
    (hname : a.output = .file name) (hwrites : writes a (outcomesOf readFile a) = true)
    (hwrite : tree.write (.ofText name)
      (Text.Utf8.encode (expandedText (outcomesOf readFile a))) = .ok tree') :
    AllOrNothing readFile tree a log
      (report a (logShows log) (outcomesOf readFile a) (some (.ofText name))) tree' where
  failed := (report_exitCode readFile a _ _).1
  passed := (report_exitCode readFile a _ _).2
  kept h := by
    obtain ⟨hpass, hcheck⟩ := (writes_iff readFile a).1 hwrites
    rcases h with h | h
    · obtain ⟨s, hs, hfails⟩ := (report_exitCode readFile a _ _).1.1 h
      exact absurd hfails (hpass s hs)
    · exact absurd (hcheck.symm.trans h) (by decide)
  saved _ _ name' hname' := by
    obtain rfl : name = name' := Output.file.inj (hname.symm.trans hname')
    obtain ⟨e, hexpands, htext⟩ := expandedText_single hsource hwrites
    rw [htext] at hwrite
    obtain ⟨place, hplace, hentry⟩ := FileTree.write_eq_ok hwrite
    have hfile : tree'.entry place = .file (Text.Utf8.encode e.text) := by simp [hentry]
    refine ⟨fun hjson => by simp [report, hjson], source, e, place, hsource, hexpands, ?_, hplace, ?_⟩
    · simp [FileTree.read, hplace, hfile, bind, Except.bind]
    · intro other bytes hother
      rw [hentry, if_neg hother]
  printed _ _ hstandard := by cases hname.symm.trans hstandard
  reported := ⟨outcomesOf readFile a, outcomesOf_yields readFile a, report_reported readFile a _ _⟩

theorem Refuses.writes {error : FileError} (h : Refuses readFile tree a error) :
    writes a (outcomesOf readFile a) = true ∧ a.output ≠ .standard := by
  obtain ⟨source, e, name, hsource, hname, hcheck, hpass, -⟩ := h
  exact ⟨(writes_iff readFile a).2 ⟨by simpa [hsource] using hpass, hcheck⟩, by simp [hname]⟩

theorem refuses_iff {source name : String} (hsource : a.sources = [source]) (hname : a.output = .file name)
    (hwrites : writes a (outcomesOf readFile a) = true) (error : FileError) :
    Refuses readFile tree a error ↔
      tree.write (.ofText name) (Text.Utf8.encode (expandedText (outcomesOf readFile a))) =
        .error error := by
  obtain ⟨hpass, hcheck⟩ := (writes_iff readFile a).1 hwrites
  obtain ⟨e, hexpands, htext⟩ := expandedText_single hsource hwrites
  rw [htext]
  refine ⟨?_, fun h => ⟨source, e, name, hsource, hname, hcheck, hpass source (by simp [hsource]),
    hexpands, h⟩⟩
  rintro ⟨source', e', name', hsource', hname', -, -, hexpands', hwrite⟩
  obtain rfl : source = source' := by simpa [hsource] using hsource'
  obtain rfl : name = name' := Output.file.inj (hname.symm.trans hname')
  obtain rfl := hexpands.unique hexpands'
  exact hwrite

/-- A run of an accepted command line breaks off exactly where a source or the output file cannot be named
to the operating system, and is refused exactly where it writes and the tree refuses the text. Else it is
complete, and all or nothing. This is so however files are read, and whatever becomes of an attached
`--`. -/
theorem runIn_all_or_nothing (ha : Arguments.parse words dashes = .ok a) (readFile : ReadFile)
    (tree : FileTree) (log : Option String) :
    ((∃ reason, runIn tree words log readFile dashes = .interrupted reason) ↔ BreaksOff readFile a) ∧
    (∀ error, runIn tree words log readFile dashes = .refused error ↔
      ¬ BreaksOff readFile a ∧ Refuses readFile tree a error) ∧
    ∀ r tree', runIn tree words log readFile dashes = .completed r tree' →
      AllOrNothing readFile tree a log r tree' := by
  rcases runIn_cases ha readFile tree log with ⟨hbreaks, reason, hrun⟩ | ⟨hbreaks, houtput, hrun⟩ |
    ⟨hbreaks, hwrites, name, hname, hrun⟩
  · simp [hrun, hbreaks]
  · have hrefuses (error : FileError) : ¬ Refuses readFile tree a error :=
      fun h => h.writes.2 (houtput h.writes.1)
    refine ⟨by simp [hrun, hbreaks], fun error => by simp [hrun, hrefuses], fun r tree' h => ?_⟩
    obtain ⟨rfl, rfl⟩ := RunOutcome.completed.inj (hrun.symm.trans h)
    exact allOrNothing_of_none houtput
  · obtain ⟨source, hsource⟩ := Arguments.parse_output ha (by simp [hname])
    simp only [refuses_iff hsource hname hwrites]
    cases hwrite : tree.write (.ofText name) (Text.Utf8.encode (expandedText (outcomesOf readFile a))) with
    | error error =>
      simp only [hwrite] at hrun
      simp [hrun, hbreaks]
    | ok written =>
      simp only [hwrite] at hrun
      refine ⟨by simp [hrun, hbreaks], fun error => by simp [hrun], fun r tree' h => ?_⟩
      obtain ⟨rfl, rfl⟩ := RunOutcome.completed.inj (hrun.symm.trans h)
      exact allOrNothing_of_write hsource hname hwrites hwrite

end Reports

/-- Reads from a tree in which the file `b` is there but may not be read. -/
def refuseB (tree : FileTree) : ReadFile := fun path =>
  if path.parts = ["b"] then .error (.other 13 "Permission denied") else tree.read path

/-- Of two sources the second one may not be read, so nothing is printed; the first one alone is written
into a directory that has to be made. -/
theorem runIn_all_or_nothing_refused :
    let tree : FileTree := { files := [(["a"], [120]), (["b"], [121])] }
    let tree' : FileTree :=
      { files := [(["d", "b"], [120]), (["a"], [120]), (["b"], [121])], directories := [["d"]] }
    let both : Arguments := { sources := ["a", "b"] }
    let first : Arguments := { sources := ["a"], output := .file "d/b" }
    let passed : Report :=
      { exitCode := 0, stdout := [], stderr := [], output := some (⟨"", ["d", "b"]⟩, ['x']) }
    (Arguments.parse ["a", "b"] .kept = .ok both ∧
      ∃ r, runIn tree ["a", "b"] none (refuseB tree) .kept = .completed r tree ∧
        AllOrNothing (refuseB tree) tree both none r tree ∧ r.exitCode = 1) ∧
    Arguments.parse ["a", "-o", "d/b"] = .ok first ∧
      runIn tree ["a", "-o", "d/b"] none = .completed passed tree' ∧
      AllOrNothing tree.read tree first none passed tree' := by
  intro tree tree' both first passed
  have hboth : Arguments.parse ["a", "b"] .kept = .ok both := by cbv
  have hfirst : Arguments.parse ["a", "-o", "d/b"] = .ok first := by cbv
  have hpassed : runIn tree ["a", "-o", "d/b"] none = .completed passed tree' := by cbv
  refine ⟨⟨hboth, ?_⟩, hfirst, hpassed, (runIn_all_or_nothing hfirst tree.read tree none).2.2 _ _ hpassed⟩
  have hrefused : refuseB tree (.ofText "b") = .error (.other 13 "Permission denied") := by
    set_option maxRecDepth 2000 in cbv
  have hnul : (Path.ofText "a").holdsNul = false ∧ (Path.ofText "b").holdsNul = false := by
    set_option maxRecDepth 2000 in cbv
  have hfails : ∃ source ∈ both.sources, Fails (refuseB tree) both.tag source :=
    ⟨"b", by simp [both], .inl ⟨_, .inl ⟨_, hrefused, rfl⟩⟩⟩
  have hbreaks : ¬ BreaksOff (refuseB tree) both := by
    rintro (h | ⟨h, -⟩)
    · simp [both, hnul] at h
    · obtain ⟨source, hsource, hfail⟩ := hfails
      exact h source hsource hfail
  obtain ⟨hinterrupted, hrefuses, hcompleted⟩ := runIn_all_or_nothing hboth (refuseB tree) tree none
  cases hrun : runIn tree ["a", "b"] none (refuseB tree) .kept with
  | interrupted reason => exact absurd (hinterrupted.1 ⟨reason, hrun⟩) hbreaks
  | refused error =>
    obtain ⟨-, source, _, _, hsource, -⟩ := (hrefuses error).1 hrun
    cases hsource
  | completed r tree'' =>
    have hall := hcompleted r tree'' hrun
    have hcode := hall.failed.2 hfails
    obtain ⟨rfl, -⟩ := hall.kept (.inl hcode)
    exact ⟨r, rfl, hall, hcode⟩

/-- A path with NUL breaks off the run, although such a source cannot be read. So does an output option
whose value is dropped: the command line is accepted and the source is expanded without an error, but there
is no report. Where the value is kept, the output is in the file of that name. -/
theorem runIn_breaks_off :
    let tree : FileTree := { files := [(["a"], [120])] }
    (Arguments.parse ["\x00"] .kept = .ok { sources := ["\x00"] } ∧
      runIn tree ["\x00"] none tree.read .kept = .interrupted .nul) ∧
    (Arguments.parse ["a", "-o--"] .dropped = .ok { sources := ["a"], output := .unnamed } ∧
      ¬ Fails tree.read defaultTag "a" ∧
      runIn tree ["a", "-o--"] none tree.read .dropped = .interrupted .unnamedOutput) ∧
    Arguments.parse ["a", "-o--"] .kept = .ok { sources := ["a"], output := .file "--" } := by
  intro tree
  have hwords : Arguments.parse ["a", "-o--"] .dropped =
      .ok { sources := ["a"], output := .unnamed } := by cbv
  have hrun : runIn tree ["a", "-o--"] none tree.read .dropped = .interrupted .unnamedOutput := by cbv
  have hnul : (Path.ofText "a").holdsNul = false := by set_option maxRecDepth 2000 in cbv
  have hpath : Arguments.parse ["\x00"] .kept = .ok { sources := ["\x00"] } := by
    set_option maxRecDepth 2000 in cbv
  have hbroken : runIn tree ["\x00"] none tree.read .kept = .interrupted .nul := by
    set_option maxRecDepth 2000 in cbv
  have hkept : Arguments.parse ["a", "-o--"] .kept = .ok { sources := ["a"], output := .file "--" } := by
    set_option maxRecDepth 2000 in cbv
  refine ⟨⟨hpath, hbroken⟩, ⟨hwords, ?_, hrun⟩, hkept⟩
  -- only a run that is about to write comes to its output file
  rcases runIn_cases hwords tree.read tree none with ⟨h | ⟨h, -⟩, -⟩ | ⟨-, -, h⟩ | ⟨-, -, name, h, -⟩
  · simp [hnul] at h
  · simpa using h
  · cases hrun.symm.trans h
  · cases h

end InlineVariants.Command
