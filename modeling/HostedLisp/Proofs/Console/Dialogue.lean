import HostedLisp.Host.Sample
import HostedLisp.Console
import HostedLisp.Proofs.Primitive.Keeping
import HostedLisp.Proofs.Script.Independence
import HostedLisp.Proofs.Value.Reading

/-!
The dialogue of the command line as runs of script files. Main statement: up to the word that ends
the dialogue each line is answered as a file is that holds nothing but the line, whatever lines came
before, as long as no line changes a value.
-/

namespace HostedLisp

namespace Text

theorem trim_append_newline (s : List Char) : trim (s ++ ['\n']) = trim s := by
  unfold trim trimLeft
  rw [List.dropWhile_append]
  cases h : s.dropWhile isBlank with
  | nil => rfl
  | cons c rest =>
      rw [List.isEmpty_cons, if_neg Bool.false_ne_true, List.reverse_append]
      rfl

theorem normalizeNewlines_eq_self {s : List Char} (h : '\r' ∉ s) : normalizeNewlines s = s := by
  induction s with
  | nil => rfl
  | cons c rest ih =>
      obtain ⟨hfirst, hrest⟩ := not_or.mp (mt List.mem_cons.mpr h)
      rw [normalizeNewlines, ih hrest, if_neg (Ne.symm hfirst)]
      exact fun _ hc _ => hfirst hc.symm

end Text

theorem Runner.scopes_handleScript [HostClasses] {r : Runner} {c : Catalogue}
    (h : r.setting.primitives = Primitive.standard ++ Primitive.library c) (source : String) :
    (r.handleScript source).2.machine.scopes = r.machine.scopes := by
  have hR : Memory.Conserved fun m m' => m'.scopes = m.scopes :=
    ⟨⟨fun _ => rfl, fun h h' => h'.trans h⟩, fun _ _ _ => rfl, fun _ _ _ => rfl⟩
  have hmembers : c.Conserves fun m m' => m'.scopes = m.scopes :=
    ⟨fun _ _ _ _ => rfl, fun _ _ _ _ _ => rfl, fun _ _ _ _ _ => rfl⟩
  have hsetting : r.setting.Conserves (fun m m' => m'.scopes = m.scopes) fun _ => True := by
    refine ⟨fun _ _ _ => rfl, fun _ _ _ _ _ => rfl, fun _ _ _ _ _ _ => trivial,
      fun _ _ _ _ _ => rfl, fun name p hp => Primitive.conserves_find? hR hmembers ?_ hp⟩
    rw [h]
    exact fun entry hentry => (List.mem_append.mp hentry).imp_right .inl
  exact conserves_handleScript hR hsetting source

namespace Runner

open Drift

/-- Whether a runner that was used is as good as the one it was when nothing had been evaluated: it
is at rest, has drifted from itself by nothing, and neither names nor changes were added. -/
structure Resumes (r : Runner) (hfresh : r.machine.Fresh) (used : Runner) : Prop where
  setting_eq : used.setting = r.setting
  atRest : used.machine.AtRest
  self : (Drift.zero _ hfresh.next_pos).Machines used.machine.rested used.machine.rested
  scopes_eq : used.machine.scopes.own Scopes.root = r.machine.scopes.own Scopes.root
  changes_eq : used.machine.store.changes = r.machine.store.changes

section Resumption

variable [HostClasses] [HostClasses.Anonymous] {r used : Runner} {hfresh : r.machine.Fresh}

omit [HostClasses] [HostClasses.Anonymous] in
theorem Resumes.refl (hfresh : r.machine.Fresh) : Resumes r hfresh r where
  setting_eq := rfl
  atRest := hfresh.atRest
  self := Drift.machines_zero (by rw [hfresh.scopes_eq]; exact Nat.one_pos)
    (by rw [hfresh.scopes_eq]; rfl) (Nat.le_refl _)
  scopes_eq := rfl
  changes_eq := rfl

/-- A script that changes nothing on the fresh runner is answered alike by the used one, which stays
as good. -/
theorem Resumes.handleScript (h : Resumes r hfresh used)
    (hstateless : r.setting.Stateless r.machine.store.nextIdentity) {c : Catalogue}
    (hprimitives : r.setting.primitives = Primitive.standard ++ Primitive.library c)
    (source : String)
    (hchanges : (r.handleScript source).2.machine.store.changes = r.machine.store.changes) :
    (∃ ρ, (used.handleScript source).1 = (r.handleScript source).1.map (ScriptResult.rename ρ)) ∧
      Resumes r hfresh (used.handleScript source).2 := by
  let δ : Drift := ⟨r.machine.store.nextIdentity,
    used.machine.store.nextIdentity - r.machine.store.nextIdentity,
    used.machine.scopes.all.length - 1, hfresh.next_pos⟩
  have hdrift := machines_after hfresh h.atRest h.self h.scopes_eq h.changes_eq δ rfl rfl rfl
  obtain ⟨hanswer, hafter⟩ :=
    handleScript_drift h.setting_eq (hstateless.admits rfl) hdrift source
  have hself := (handleScript_drift rfl (h.setting_eq ▸ hstateless.admits rfl) h.self source).2
  have hscopes := scopes_handleScript (h.setting_eq ▸ hprimitives) source
  have hstore : (used.handleScript source).2.machine.store.changes =
      (r.handleScript source).2.machine.store.changes.map (Change.rename δ.shifted) :=
    hafter.store.changes_eq
  rw [hchanges, hfresh.rename_changes rfl] at hstore
  exact ⟨⟨_, hanswer⟩, (setting_handleScript used source).trans h.setting_eq,
    atRest_handleScript h.atRest source, hself, hscopes ▸ h.scopes_eq, hstore⟩

end Resumption

end Runner

namespace Console

open Text

/-- A line of input without its end. -/
def content (piece : List Char) : List Char :=
  if piece.getLast? = some '\n' then piece.dropLast else piece

def inputLines (input : List Char) : List (List Char) := (linesWithEnds input).map content

/-- The lines before the one that ends the dialogue. -/
def linesToAnswer (lines : List (List Char)) : List (List Char) :=
  lines.takeWhile (· != endWord.toList)

/-- What the dialogue writes of a run of a file. A failure that ends the run is only reported. -/
def Transcript.reply (t : Transcript) : Reply :=
  match t.exit with
  | .status _ => ⟨t.out, t.err, false⟩
  | .failure f => complaint f

/-- The dialogue in which each line has a reply of its own, an empty line none, and the lines end
with the word that ends the dialogue or with the input. -/
def conversation (reply : List Char → Reply) (lines : List (List Char)) : Transcript :=
  let replies := (linesToAnswer lines).map fun line =>
    if line.isEmpty then ⟨"", "", false⟩ else reply line
  let ending := if endWord.toList ∈ lines then prompt else prompt ++ farewell
  ⟨String.join (replies.map fun a => prompt ++ a.out) ++ ending,
    String.join (replies.map Reply.err), .status 0⟩

section Replies

variable [HostClasses]

def replyTo : Except Failure ScriptResult → Reply
  | .error f => complaint f
  | .ok (.success v) =>
      match valueLine v with
      | .ok text => ⟨text, "", false⟩
      | .error f => complaint f
  | .ok report => ⟨"", report.errorReport ++ "\n", false⟩

theorem replyTo_rename [HostClasses.Anonymous] (ρ : Renaming)
    (result : Except Failure ScriptResult) :
    replyTo (result.map (ScriptResult.rename ρ)) = replyTo result := by
  cases result with
  | error f => rfl
  | ok answer =>
      cases answer with
      | failure message token => rfl
      | success v =>
          have hline : valueLine (v.rename ρ) = valueLine v := by
            unfold valueLine
            rw [Value.isNull_rename, Value.source?_rename]
          change replyTo (.ok (.success (v.rename ρ))) = _
          simp only [replyTo, hline]

theorem reply_runFile (r : Runner) {files : Files} {name : String} {line : List Char}
    (hfile : files.lookup (Path.ofText name) = some (String.ofList line)) (h : '\r' ∉ line) :
    (runFile r files name).reply = replyTo (r.handleScript (String.ofList line)).1 := by
  have hread : files.read (Path.ofText name) = .ok line := by
    simp only [Files.read, hfile, String.toList_ofList, normalizeNewlines_eq_self h]
  unfold runFile
  simp only [hread]
  cases (r.handleScript (String.ofList line)).1 with
  | error f => rfl
  | ok answer =>
      cases answer with
      | failure message token => rfl
      | success v =>
          simp only [replyTo]
          cases valueLine v <;> rfl

end Replies

section Lines

variable {reply : List Char → Reply} {line : List Char} {lines : List (List Char)}

theorem trim_content (piece : List Char) : trim (content piece) = trim piece := by
  unfold content
  split
  · rename_i h
    obtain ⟨line, rfl⟩ := List.getLast?_eq_some_iff.mp h
    rw [List.dropLast_concat, trim_append_newline]
  · rfl

theorem conversation_endWord :
    conversation reply (endWord.toList :: lines) = ⟨prompt, "", .status 0⟩ := by
  have hnone : linesToAnswer (endWord.toList :: lines) = [] := by
    rw [linesToAnswer, List.takeWhile_cons_of_neg (by simp)]
  rw [conversation, hnone, if_pos List.mem_cons_self]
  rfl

theorem linesToAnswer_cons (h : line ≠ endWord.toList) :
    linesToAnswer (line :: lines) = line :: linesToAnswer lines := by
  rw [linesToAnswer, List.takeWhile_cons_of_pos (by simpa using h)]
  rfl

theorem conversation_cons (h : line ≠ endWord.toList) :
    conversation reply (line :: lines) =
      let a : Reply := if line.isEmpty then ⟨"", "", false⟩ else reply line
      let t := conversation reply lines
      ⟨prompt ++ a.out ++ t.out, a.err ++ t.err, t.exit⟩ := by
  have hmem : endWord.toList ∈ line :: lines ↔ endWord.toList ∈ lines := by
    rw [List.mem_cons, or_iff_right (Ne.symm h)]
  simp only [conversation, linesToAnswer_cons h, hmem, List.map_cons, String.join_cons,
    String.append_assoc]

variable [HostClasses]

theorem answer_nil (r : Runner) (h : trim line = []) : answer r line = (⟨"", "", false⟩, r) := by
  simp only [answer, h]
  rfl

theorem answer_endWord (r : Runner) (h : trim line = endWord.toList) :
    answer r line = (⟨"", "", true⟩, r) := by
  simp only [answer, h]
  rfl

theorem answer_eq (r : Runner) (hempty : trim line ≠ []) (hend : trim line ≠ endWord.toList) :
    answer r line =
      (replyTo (r.handleScript (String.ofList (trim line))).1,
        (r.handleScript (String.ofList (trim line))).2) := by
  have hsome : (String.ofList (trim line)).isEmpty ≠ true := by
    rw [ne_eq, String.isEmpty_iff]
    exact fun h => hempty (by simpa using congrArg String.toList h)
  have hother : String.ofList (trim line) ≠ endWord :=
    fun h => hend (by simpa using congrArg String.toList h)
  unfold answer
  dsimp only
  rw [if_neg hsome, if_neg hother]
  generalize r.handleScript (String.ofList (trim line)) = answered
  obtain ⟨result, after⟩ := answered
  cases result with
  | error f => rfl
  | ok report =>
      cases report with
      | failure message token => rfl
      | success v =>
          simp only [replyTo]
          cases valueLine v <;> rfl

end Lines

section Sequence

variable [HostClasses] {r used : Runner} {hfresh : r.machine.Fresh}

theorem ends_replyTo (result : Except Failure ScriptResult) : (replyTo result).ends = false := by
  unfold replyTo
  split
  · rfl
  · split <;> rfl
  · rfl

/-- The dialogue with a used runner, by the answers that the fresh one gives to each line alone. -/
theorem dialogue_of_resumes [HostClasses.Anonymous] (h : Runner.Resumes r hfresh used)
    (hstateless : r.setting.Stateless r.machine.store.nextIdentity) {c : Catalogue}
    (hprimitives : r.setting.primitives = Primitive.standard ++ Primitive.library c)
    {reply : List Char → Reply} (pieces : List (List Char))
    (htrimmed : ∀ line ∈ pieces.map content, trim line = line)
    (hreply : ∀ line ∈ pieces.map content,
      reply line = replyTo (r.handleScript (String.ofList line)).1)
    (hchanges : ∀ line ∈ linesToAnswer (pieces.map content),
      (r.handleScript (String.ofList line)).2.machine.store.changes = r.machine.store.changes) :
    dialogue used pieces = conversation reply (pieces.map content) := by
  -- Over the pieces of the input, for all runners that are as good as the fresh one.
  induction pieces generalizing used with
  | nil => rfl
  | cons piece pieces ih =>
      have htrim : trim piece = content piece :=
        (trim_content piece).symm.trans (htrimmed _ List.mem_cons_self)
      have hreply' := (List.forall_mem_cons.mp hreply).2
      have htrimmed' := (List.forall_mem_cons.mp htrimmed).2
      by_cases hend : content piece = endWord.toList
      · rw [List.map_cons, hend, conversation_endWord, dialogue,
          answer_endWord used (htrim.trans hend)]
        rfl
      · rw [List.map_cons] at hchanges ⊢
        rw [linesToAnswer_cons hend] at hchanges
        obtain ⟨hchange, hchanges'⟩ := List.forall_mem_cons.mp hchanges
        rw [conversation_cons hend, dialogue]
        by_cases hempty : content piece = []
        · rw [answer_nil used (htrim.trans hempty), hempty]
          simp only [ih h htrimmed' hreply' hchanges']
          rfl
        · obtain ⟨⟨ρ, hanswer⟩, hafter⟩ := h.handleScript hstateless hprimitives _ hchange
          have hsome : (content piece).isEmpty = false := List.isEmpty_eq_false_iff.mpr hempty
          rw [answer_eq used (htrim ▸ hempty) (htrim ▸ hend), htrim, hanswer, replyTo_rename,
            hreply _ List.mem_cons_self, hsome]
          simp only [ends_replyTo, ih hafter htrimmed' hreply' hchanges']
          rfl

end Sequence

section Runs

variable [HostClasses]

/-- A runner of the command line over new values, as those of a file of bindings are. -/
def ofGlobals (c : Catalogue) (globals : List (Value × Value)) (h : Value.AllNew globals) :
    Construction where
  setting := setting c
  store := .empty
  globals := globals
  next_pos := Nat.one_pos
  changes_issued := nofun
  globals_issued b hb i hi := by
    rw [(h b hb).2 i hi]
    exact Nat.one_pos

/-- Whatever members values have, as long as these go neither by what is recorded nor by identities,
and whatever names are bound, the dialogue answers each line before the one that ends it as a file
is run with this line as its text, however the lines before it were answered: the same is written,
and a failure that would end the run is only reported. Empty lines are skipped. The lines must have
no blanks at their ends and change no value. -/
theorem dialogue_eq_conversation [HostClasses.Anonymous] (c : Catalogue)
    (globals : List (Value × Value)) (hnew : Value.AllNew globals) (r : Runner)
    (hr : (Runner.start (setting c) .empty).bindAll globals = .ok r)
    (hcatalogue : ∀ δ : Drift, δ.first = r.machine.store.nextIdentity → δ.AdmitsCatalogue c)
    (name : String) (input : List Char)
    (hlines : ∀ line ∈ inputLines input, trim line = line ∧ '\r' ∉ line)
    (hchanges : ∀ line ∈ linesToAnswer (inputLines input),
      (r.handleScript (String.ofList line)).2.machine.store.changes = r.machine.store.changes) :
    dialogue r (linesWithEnds input) =
      conversation
        (fun line => (runFile r [(Path.ofText name, String.ofList line)] name).reply)
        (inputLines input) := by
  have hconstruction : (ofGlobals c globals hnew).runner? = .ok r := hr
  obtain ⟨hfresh, hsame⟩ := Construction.fresh hconstruction
  have hstateless : r.setting.Stateless r.machine.store.nextIdentity := by
    rw [hsame]
    exact .ofCatalogue hcatalogue nofun
  exact dialogue_of_resumes (.refl hfresh) hstateless (congrArg Setting.primitives hsame)
    (linesWithEnds input) (fun line hline => (hlines line hline).1)
    (fun line hline => reply_runFile r List.lookup_cons_self (hlines line hline).2) hchanges

/-- The runner that the command line begins with is one of these. -/
theorem exists_bindings_of_runner {c : Catalogue} {files : Files} {globals : Option String}
    {r : Runner} (h : runner c files globals = .ok r) :
    ∃ bindings, Value.AllNew bindings ∧
      (Runner.start (setting c) .empty).bindAll bindings = .ok r := by
  cases globals with
  | none => exact ⟨[], nofun, h⟩
  | some name =>
      change (Globals.load files name >>= fun bindings =>
        (Runner.start (setting c) .empty).bindAll bindings) = .ok r at h
      cases hload : Globals.load files name with
      | error f =>
          rw [hload] at h
          cases h
      | ok bindings =>
          rw [hload] at h
          exact ⟨bindings, Globals.isNew_load files name bindings hload, h⟩

end Runs

open scoped Sample

/-- A number, an empty line, a failure, a list, and a line after the end. -/
theorem dialogue_eq_conversation_over_number :
    let globals := [(Value.str "n", Value.int 5)]
    let r : Runner :=
      ⟨setting Builtin.catalogue, (Machine.bindAllRoot globals Machine.initial).2⟩
    let input := "n\n\n(missing n)\n[n 'a']\nexit\nn\n".toList
    Value.AllNew globals ∧
    dialogue r (linesWithEnds input) =
      conversation
        (fun line => (runFile r [(Path.ofText "a.lisp", String.ofList line)] "a.lisp").reply)
        (inputLines input) := by
  intro globals r input
  have hnew : Value.AllNew globals := List.forall_mem_singleton.mpr ⟨nofun, nofun⟩
  have hlines : (inputLines input).all fun line => trim line == line && !line.contains '\r' := by
    decide +kernel
  have hchanges : (linesToAnswer (inputLines input)).all fun line =>
      (r.handleScript (String.ofList line)).2.machine.store.changes.isEmpty := by
    decide +kernel
  have hnone : r.machine.store.changes = [] := List.isEmpty_iff.mp (by decide +kernel)
  refine ⟨hnew, dialogue_eq_conversation Builtin.catalogue globals hnew r rfl
    (fun δ _ => Builtin.admits_catalogue δ) "a.lisp" input (by simpa using hlines)
    fun line hline => ?_⟩
  rw [hnone]
  exact List.isEmpty_iff.mp (List.all_eq_true.mp hchanges line hline)

/-- A line with a number that cannot be written: the dialogue reports it on the error channel, and
the run of a file ends and writes nothing. -/
theorem dialogue_reports_unwritable :
    ¬ ∀ (globals : List (Value × Value)) (r : Runner) (name : String) (input : List Char),
      Value.AllNew globals →
      (Runner.start (setting Builtin.catalogue) .empty).bindAll globals = .ok r →
      (∀ line ∈ inputLines input, trim line = line ∧ '\r' ∉ line) →
      (∀ line ∈ linesToAnswer (inputLines input),
        (r.handleScript (String.ofList line)).2.machine.store.changes = r.machine.store.changes) →
      dialogue r (linesWithEnds input) =
        conversation
          (fun line =>
            let t := runFile r [(Path.ofText name, String.ofList line)] name
            ⟨t.out, t.err, false⟩)
          (inputLines input) := by
  intro h
  let globals := [(Value.str "big", Value.int (Number.pow10 4300))]
  let r : Runner := ⟨setting Builtin.catalogue, (Machine.bindAllRoot globals Machine.initial).2⟩
  let input := "big\n".toList
  have hnew : Value.AllNew globals := List.forall_mem_singleton.mpr ⟨nofun, nofun⟩
  have hlines : (inputLines input).all fun line => trim line == line && !line.contains '\r' := by
    decide +kernel
  have hchanges : (linesToAnswer (inputLines input)).all fun line =>
      (r.handleScript (String.ofList line)).2.machine.store.changes.isEmpty := by
    decide +kernel
  have hnone : r.machine.store.changes = [] := List.isEmpty_iff.mp (by decide +kernel)
  have heq := h globals r "a.lisp" input hnew rfl (by simpa using hlines) fun line hline =>
    (List.isEmpty_iff.mp (List.all_eq_true.mp hchanges line hline)).trans hnone.symm
  have hreported : (dialogue r (linesWithEnds input)).err.isEmpty = false := by decide +kernel
  rw [heq] at hreported
  revert hreported
  decide +kernel

end Console

end HostedLisp
