import Limn.Command.Line
import Mathlib.Tactic

/-! # Command lines that are read as they are meant

A switch that takes a text may have it attached after an equals sign, and then the text may be any:
it is not looked at again, whatever dashes, blanks or equals signs it holds (`lookUp_attached`).
Words are read one by one from there, each with one equation, and whole lines by induction on the
words (`readLine_highlight`, `readLine_outline`, `readLine_serve`).
-/

namespace Limn.Command

/-! ## Looking words up -/

theorem lookUp_plain (switches : List Switch) {text : String}
    (h : text.toList.head? ≠ some '-') : lookUp switches text = .ok (.plain text) := by
  unfold lookUp
  rw [if_pos (by simpa using h)]

/-- No name of a switch holds an equals sign. -/
def PlainNames (switches : List Switch) : Prop :=
  ∀ n ∈ named switches, '=' ∉ n.1

instance (switches : List Switch) : Decidable (PlainNames switches) :=
  inferInstanceAs (Decidable (∀ n ∈ named switches, '=' ∉ n.1))

section Attached

variable {switches : List Switch} {text : String} {name value : List Char}

theorem splitValue_attached (hname : '=' ∉ name) :
    splitValue (name ++ '=' :: value) = (name, some value) := by
  have hbefore : ∀ c ∈ name, (c != '=') = true := by
    intro c hc
    simpa using fun h : c = '=' => hname (h ▸ hc)
  unfold splitValue
  rw [List.span_eq_takeWhile_dropWhile, List.takeWhile_append_of_pos hbefore,
    List.dropWhile_append_of_pos hbefore]
  simp

theorem lookup_attached (hnames : PlainNames switches) :
    (named switches).lookup (name ++ '=' :: value) = none := by
  rw [List.lookup_eq_none_iff]
  intro n hn
  rw [bne_iff_ne]
  intro h
  apply hnames n hn
  rw [← h]
  simp

/-- A text attached to a switch is taken as it is. -/
theorem lookUp_attached {s : Switch} (hnames : PlainNames switches) (hname : '=' ∉ name)
    (hdash : name.head? = some '-') (hs : (named switches).lookup name = some s)
    (htext : text.toList = name ++ '=' :: value) :
    lookUp switches text = .ok (.switch text s (isLong name) (some value)) := by
  have hhead : (name ++ '=' :: value).head? = some '-' := by
    rw [List.head?_append, hdash]
    rfl
  unfold lookUp
  rw [htext, if_neg (by simp [hhead]), splitValue_attached hname]
  dsimp only
  rw [lookup_attached hnames, hs]

/-- A switch that is not among those in force is left to whoever reads the word next. -/
theorem lookUp_foreign (hnames : PlainNames switches) (hname : '=' ∉ name)
    (hlong : isLong name = true)
    (hforeign : ∀ n ∈ named switches, name.isPrefixOf n.1 = false)
    (htext : text.toList = name ++ '=' :: value) :
    ∃ w, lookUp switches text = .ok w := by
  have hs : (named switches).lookup name = none := by
    rw [List.lookup_eq_none_iff]
    intro n hn
    rw [bne_iff_ne]
    rintro rfl
    have hself : n.1.isPrefixOf n.1 = true := List.isPrefixOf_iff_prefix.mpr (List.prefix_refl _)
    rw [hforeign n hn] at hself
    cases hself
  have hlong' : isLong (name ++ '=' :: value) = true := by
    rw [isLong, List.isPrefixOf_iff_prefix] at hlong ⊢
    exact hlong.trans (List.prefix_append _ _)
  have hcandidates : candidates switches (name ++ '=' :: value) = [] := by
    rw [candidates, if_pos hlong', splitValue_attached hname]
    rw [List.filterMap_eq_nil_iff]
    rintro ⟨n, s⟩ hn
    simp [hforeign _ hn]
  have hlength : ((name ++ '=' :: value).length == 1) = false := by
    rw [isLong, List.isPrefixOf_iff_prefix] at hlong
    have := hlong.length_le
    simp at this ⊢
    omega
  unfold lookUp
  rw [htext]
  dsimp only
  rw [splitValue_attached hname]
  dsimp only
  rw [lookup_attached hnames, hs, hcandidates, hlength]
  dsimp only
  split
  · exact ⟨_, rfl⟩
  · simp only [Bool.false_eq_true, if_false]
    split <;> exact ⟨_, rfl⟩

end Attached

theorem text_of_lookUp {switches : List Switch} {text : String} {w : Word}
    (h : lookUp switches text = .ok w) : w.text = text := by
  unfold lookUp at h
  dsimp only at h
  repeat' split at h
  all_goals first | cases h; rfl | cases h

theorem ne_dashes {text : String} (h : text.toList.head? ≠ some '-') : text ≠ "--" := by
  rintro rfl
  exact h rfl

theorem attached_ne_dashes {text : String} {name value : List Char}
    (h : text.toList = name ++ '=' :: value) : text ≠ "--" := by
  rintro rfl
  have hmem : '=' ∈ "--".toList := by
    rw [h]
    simp
  exact absurd hmem (by decide)

theorem lookUpAll_cons {switches : List Switch} {text : String} {rest : List String} {w : Word}
    {words : List Word} (hdashes : text ≠ "--") (hw : lookUp switches text = .ok w)
    (hrest : lookUpAll switches rest = .ok words) :
    lookUpAll switches (text :: rest) = .ok (w :: words) := by
  rw [lookUpAll, if_neg (by simpa using hdashes), hw, hrest]
  rfl

/-- Words that all can be looked up, whatever comes of it. -/
theorem lookUpAll_texts {switches : List Switch} {args : List String}
    (h : ∀ text ∈ args, text ≠ "--" ∧ ∃ w, lookUp switches text = .ok w) :
    ∃ words, lookUpAll switches args = .ok words ∧ words.map Word.text = args := by
  induction args with
  | nil => exact ⟨[], rfl, rfl⟩
  | cons text rest ih =>
      obtain ⟨⟨hdashes, w, hw⟩, hrest⟩ := List.forall_mem_cons.mp h
      obtain ⟨words, hwords, htexts⟩ := ih hrest
      refine ⟨w :: words, lookUpAll_cons hdashes hw hwords, ?_⟩
      rw [List.map_cons, text_of_lookUp hw, htexts]

/-! ## Reading words -/

section Reading

variable (switches : List Switch) (slots : Nat) (t : Taken) (rest : List Word)

/-- A switch has taken effect with a value. -/
def Taken.give (t : Taken) (s : Switch) (value : String) : Taken :=
  { t with given := t.given ++ [⟨s.key, value⟩] }

theorem add_give {s : Switch} (hs : s.effect = .takeText ∨ s.effect = .turnOn) (value : String) :
    t.add [(s, value)] = .ok (t.give s value) := by
  rcases hs with hs | hs <;>
    simp [Taken.add, Taken.give, take, hs, bind, Except.bind, pure, Except.pure]

theorem cluster_attached {s : Switch} (hs : s.effect = .takeText) (long : Bool)
    (value : List Char) :
    cluster switches s long (some value) = .ok { ready := [(s, String.ofList value)] } := by
  have htakes : s.takesValue = true := by
    rw [Switch.takesValue, hs]
    rfl
  cases value with
  | nil => rw [cluster, lettered, if_pos htakes]
  | cons c rest => rw [cluster, lettered, if_pos htakes]

theorem readWords_attached {s : Switch} (hs : s.effect = .takeText) (text : String) (long : Bool)
    (value : List Char) :
    readWords switches slots t (.switch text s long (some value) :: rest) =
      readWords switches slots (t.give s (String.ofList value)) rest := by
  rw [readWords, cluster_attached switches hs]
  show (do readWords switches slots (← t.add [(s, String.ofList value)]) rest) = _
  rw [add_give t (.inl hs)]
  rfl

theorem readWords_turnOn {s : Switch} (hs : s.effect = .turnOn) (text : String) (long : Bool) :
    readWords switches slots t (.switch text s long none :: rest) =
      readWords switches slots (t.give s "") rest := by
  have htakes : s.takesValue = false := by
    rw [Switch.takesValue, hs]
    rfl
  rw [readWords, cluster, bare, if_neg (by simp [htakes])]
  show (do readWords switches slots (← t.add [(s, "")]) rest) = _
  rw [add_give t (.inr hs)]
  rfl

theorem readProgram_attached {s : Switch} (hs : s.effect = .takeText) (text : String) (long : Bool)
    (value : List Char) :
    readProgram t (.switch text s long (some value) :: rest) =
      readProgram (t.give s (String.ofList value)) rest := by
  rw [readProgram, cluster_attached programSwitches hs]
  show (do readProgram (← t.add [(s, String.ofList value)]) rest) = _
  rw [add_give t (.inl hs)]
  rfl

end Reading

theorem readTask_eq {form : Form} {args : List String} {words : List Word} {t : Taken} {task : Task}
    (hwords : lookUpAll (.help :: form.switches) args = .ok words)
    (hread : readWords (.help :: form.switches) (if form.needsFile then 1 else 0) {} words = .ok t)
    (hfile : form.needsFile = true → t.arguments ≠ [])
    (htask : taskOf form.name (t.arguments.head?.getD "") t.given = some task) :
    readTask form args = .ok (task, t.leftOver) := by
  have hfile' : (form.needsFile && t.arguments.isEmpty) = false := by
    rw [Bool.and_eq_false_imp]
    intro h
    simpa using hfile h
  simp [readTask, hwords, hread, hfile', htask, bind, Except.bind]

/-! ## Whole lines -/

/-- The word that names a settings file, if one is named. -/
def configWords (config : Option String) : List String :=
  config.toList.map ("--config=" ++ ·)

/-- The words of a command are its own business: before its name only the settings file is read. -/
theorem readLine_command (form : Form) {args : List String} {task : Task} (config : Option String)
    (hform : forms.find? (·.name == form.name) = some form)
    (hname : form.name.toList.head? ≠ some '-')
    (hargs : ∀ text ∈ args, text ≠ "--" ∧ ∃ w, lookUp programSwitches text = .ok w)
    (htask : readTask form args = .ok (task, false)) :
    readLine (configWords config ++ form.name :: args) = .ok ⟨config, false, task⟩ := by
  obtain ⟨words, hwords, htexts⟩ := lookUpAll_texts hargs
  have hplain := lookUpAll_cons (ne_dashes hname) (lookUp_plain programSwitches hname) hwords
  have hrun : ∀ t : Taken, t.leftOver = false →
      readProgram t (.plain form.name :: words) =
        .ok ⟨lastValue? t.given "--config", isGiven t.given "--verbose", task⟩ := by
    intro t ht
    rw [readProgram, hform]
    dsimp only
    rw [htexts, htask]
    simp [ht, bind, Except.bind]
  cases config with
  | none =>
      show (lookUpAll programSwitches (form.name :: args) >>= readProgram {}) = _
      rw [hplain]
      exact hrun {} rfl
  | some path =>
      have htext : ("--config=" ++ path).toList = "--config".toList ++ '=' :: path.toList := by
        simp
      have hpath : lookUp programSwitches ("--config=" ++ path) =
          .ok (.switch _ ⟨["--config"], .takeText⟩ true (some path.toList)) :=
        lookUp_attached (by decide) (by decide) rfl rfl htext
      show (lookUpAll programSwitches (("--config=" ++ path) :: form.name :: args) >>=
        readProgram {}) = _
      rw [lookUpAll_cons (attached_ne_dashes htext) hpath hplain]
      show readProgram {} _ = _
      rw [readProgram_attached _ _ rfl, hrun _ rfl, String.ofList_toList]
      rfl

/-- The switch for one feature. -/
def featureSwitch : Switch := ⟨["--feature"], .takeText⟩

/-- The switch for output as JSON. -/
def jsonSwitch : Switch := ⟨["--json"], .turnOn⟩

/-- The form of `highlight`. -/
def highlightForm : Form where
  name := "highlight"
  switches := [featureSwitch, ⟨["--snapshot"], .turnOn⟩, jsonSwitch]

/-- The form of `outline`. -/
def outlineForm : Form where
  name := "outline"
  switches := [⟨["--snapshot"], .turnOn⟩, jsonSwitch]

theorem toList_feature (name : String) :
    ("--feature=" ++ name).toList = "--feature".toList ++ '=' :: name.toList := by
  simp

/-- The words of features and a file, looked up. -/
def featureWords (names : List String) (file : String) : List Word :=
  names.map (fun name => .switch ("--feature=" ++ name) featureSwitch true (some name.toList)) ++
    [.plain file]

theorem lookUpAll_features {file : String} (hfile : file.toList.head? ≠ some '-')
    (names : List String) :
    lookUpAll (.help :: highlightForm.switches) (names.map ("--feature=" ++ ·) ++ [file]) =
      .ok (featureWords names file) := by
  induction names with
  | nil => exact lookUpAll_cons (ne_dashes hfile) (lookUp_plain _ hfile) rfl
  | cons name rest ih =>
      have hname := toList_feature name
      exact lookUpAll_cons (attached_ne_dashes hname)
        (lookUp_attached (by decide) (by decide) rfl rfl hname) ih

theorem readWords_features (switches : List Switch) (t : Taken) (file : String)
    (names : List String) :
    readWords switches 1 t (featureWords names file) = .ok { t with
      given := t.given ++ names.map fun name => ⟨"--feature", name⟩
      arguments := t.arguments ++ [file] } := by
  induction names generalizing t with
  | nil =>
      rw [List.map_nil, List.append_nil]
      rfl
  | cons name rest ih =>
      show readWords switches 1 t (.switch _ featureSwitch true (some name.toList) ::
        featureWords rest file) = _
      rw [readWords_attached _ _ _ _ rfl, ih]
      simp [Taken.give, featureSwitch, Switch.key]

theorem taskOf_highlight (file : String) (names : List String) :
    taskOf "highlight" file (⟨"--json", ""⟩ :: names.map fun name => ⟨"--feature", name⟩) =
      some (.highlight file (names.map .text) false true) := by
  have hvalues : valuesOf (⟨"--json", ""⟩ :: names.map fun name => ⟨"--feature", name⟩)
      "--feature" = names := by
    simp [valuesOf, List.filter_map, Function.comp_def]
  have hsnapshot : isGiven (⟨"--json", ""⟩ :: names.map fun name => ⟨"--feature", name⟩)
      "--snapshot" = false := by
    simp [isGiven]
  show some (Task.highlight file ((valuesOf _ "--feature").map .text) (isGiven _ "--snapshot")
    true) = _
  rw [hvalues, hsnapshot]

/-- The words of `highlight` with one switch for each feature. -/
theorem readLine_highlight (config : Option String) {file : String}
    (hfile : file.toList.head? ≠ some '-') (names : List String) :
    readLine (configWords config ++
        "highlight" :: "--json" :: (names.map ("--feature=" ++ ·) ++ [file])) =
      .ok ⟨config, false, .highlight file (names.map .text) false true⟩ := by
  have hlooked : lookUpAll (.help :: highlightForm.switches)
      ("--json" :: (names.map ("--feature=" ++ ·) ++ [file])) =
        .ok (.switch "--json" jsonSwitch true none :: featureWords names file) :=
    lookUpAll_cons (by decide) rfl (lookUpAll_features hfile names)
  have hread : readWords (.help :: highlightForm.switches) 1 {}
      (.switch "--json" jsonSwitch true none :: featureWords names file) =
        .ok { given := ⟨"--json", ""⟩ :: names.map fun name => ⟨"--feature", name⟩
              arguments := [file] } := by
    rw [readWords_turnOn _ _ _ _ rfl, readWords_features]
    rfl
  refine readLine_command highlightForm config rfl (by decide) ?_
    (readTask_eq hlooked hread (by simp) (taskOf_highlight file names))
  intro text htext
  rcases List.mem_cons.mp htext with rfl | htext
  · exact ⟨by decide, _, rfl⟩
  rcases List.mem_append.mp htext with htext | htext
  · obtain ⟨name, -, rfl⟩ := List.mem_map.mp htext
    have hname := toList_feature name
    exact ⟨attached_ne_dashes hname,
      lookUp_foreign (by decide) (by decide) (by decide) (by decide) hname⟩
  · obtain rfl := List.mem_singleton.mp htext
    exact ⟨ne_dashes hfile, _, lookUp_plain _ hfile⟩

/-- The words of `outline`. -/
theorem readLine_outline (config : Option String) {file : String}
    (hfile : file.toList.head? ≠ some '-') :
    readLine (configWords config ++ ["outline", "--json", file]) =
      .ok ⟨config, false, .outline file false true⟩ := by
  have hlooked : lookUpAll (.help :: outlineForm.switches) ["--json", file] =
      .ok [.switch "--json" jsonSwitch true none, .plain file] :=
    lookUpAll_cons (by decide) rfl (lookUpAll_cons (ne_dashes hfile) (lookUp_plain _ hfile) rfl)
  have hread : readWords (.help :: outlineForm.switches) 1 {}
      [.switch "--json" jsonSwitch true none, .plain file] =
        .ok { given := [⟨"--json", ""⟩], arguments := [file] } := by
    rw [readWords_turnOn _ _ _ _ rfl]
    rfl
  refine readLine_command outlineForm config rfl (by decide) ?_
    (readTask_eq hlooked hread (by simp) rfl)
  intro text htext
  rcases List.mem_cons.mp htext with rfl | htext
  · exact ⟨by decide, _, rfl⟩
  · obtain rfl := List.mem_singleton.mp htext
    exact ⟨ne_dashes hfile, _, lookUp_plain _ hfile⟩

/-- The form of `serve`. -/
def serveForm : Form where
  name := "serve"
  switches := [⟨["--host"], .takeText⟩, ⟨["--port"], .takeInteger⟩, ⟨["--token"], .takeText⟩,
    ⟨["--cors"], .turnOn⟩]
  needsFile := false

/-- The words of `serve` with a token. -/
theorem readLine_serve (config : Option String) (token : String) :
    readLine (configWords config ++ ["serve", "--token=" ++ token]) =
      .ok ⟨config, false, .serve "127.0.0.1" 8766 token false⟩ := by
  have htoken : ("--token=" ++ token).toList = "--token".toList ++ '=' :: token.toList := by
    simp
  have hlooked : lookUpAll (.help :: serveForm.switches) ["--token=" ++ token] =
      .ok [.switch ("--token=" ++ token) ⟨["--token"], .takeText⟩ true (some token.toList)] :=
    lookUpAll_cons (attached_ne_dashes htoken)
      (lookUp_attached (by decide) (by decide) rfl rfl htoken) rfl
  have hread : readWords (.help :: serveForm.switches) 0 {}
      [.switch ("--token=" ++ token) ⟨["--token"], .takeText⟩ true (some token.toList)] =
        .ok { given := [⟨"--token", token⟩] } := by
    rw [readWords_attached _ _ _ _ rfl, String.ofList_toList]
    rfl
  refine readLine_command serveForm config rfl (by decide) ?_
    (readTask_eq hlooked hread (by simp [serveForm]) rfl)
  intro text htext
  obtain rfl := List.mem_singleton.mp htext
  exact ⟨attached_ne_dashes htoken,
    lookUp_foreign (by decide) (by decide) (by decide) (by decide) htoken⟩

end Limn.Command
