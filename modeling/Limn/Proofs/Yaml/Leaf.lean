import Limn.Proofs.Yaml.Quoted
import Limn.Yaml.Reader

/-! # Scalars of a document

The values that are no collections, as they are written after a key and as they read back: wordings,
integers and truth values. Integers and truth values read back as themselves. A wording reads back
as `rereadText` says, which is the wording itself exactly if it `Survives`.
-/

namespace Limn.Yaml

open Writer
open Limn.Text (Symbol)

/-! ## Wordings -/

/-- What a wording reads back as, written with an indentation for its further lines. -/
def rereadText (indent : Nat) : Wording → Wording
  | .text s =>
    if isQuotable s then .text (String.ofList (rereadQuotable s.toList))
    else .ofSymbols (rereadDouble indent true (Symbol.ofText s))
  | .halved h => .ofSymbols (rereadDouble indent true h.symbols)

/-- Double quotes keep the symbols: there is room on the lines, or no escape before a blank. -/
def KeptDoubly (indent : Nat) (row : List Symbol) : Prop :=
  indent < width ∨ hasStrain true row = false

instance (indent : Nat) (row : List Symbol) : Decidable (KeptDoubly indent row) :=
  inferInstanceAs (Decidable (_ ∨ _))

/-- The wording is kept by the style that it is written in. -/
def Survives (indent : Nat) : Wording → Prop
  | .text s =>
    if isQuotable s then nextLine ∉ s.toList else KeptDoubly indent (Symbol.ofText s)
  | .halved h => KeptDoubly indent h.symbols

instance (indent : Nat) : (w : Wording) → Decidable (Survives indent w)
  | .text s => inferInstanceAs (Decidable
      (if isQuotable s then nextLine ∉ s.toList else KeptDoubly indent (Symbol.ofText s)))
  | .halved h => inferInstanceAs (Decidable (KeptDoubly indent h.symbols))

theorem ofList_eq_iff {cs : List Char} {s : String} : String.ofList cs = s ↔ cs = s.toList := by
  rw [← String.toList_inj, String.toList_ofList]

theorem ofSymbols_rereadDouble_iff {indent : Nat} {w : Wording} :
    .ofSymbols (rereadDouble indent true w.symbols) = w ↔ KeptDoubly indent w.symbols := by
  have hsymbols : .ofSymbols (rereadDouble indent true w.symbols) = w ↔
      rereadDouble indent true w.symbols = w.symbols := by
    constructor
    · intro h
      simpa using congrArg Wording.symbols h
    · intro h
      rw [h, Wording.ofSymbols_symbols]
  rw [hsymbols, rereadDouble_eq_self_iff, KeptDoubly, ← Nat.not_le, imp_iff_not_or]

/-- **Which wordings survive.** -/
theorem rereadText_eq_self_iff {indent : Nat} {w : Wording} :
    rereadText indent w = w ↔ Survives indent w := by
  cases w with
  | text s =>
      rw [rereadText, Survives]
      split
      · rename_i hs
        rw [Wording.text.injEq, ofList_eq_iff]
        exact rereadQuotable_eq_self_iff hs
      · exact ofSymbols_rereadDouble_iff (w := .text s)
  | halved h => exact ofSymbols_rereadDouble_iff (w := .halved h)

theorem exists_chars_of_rereadDouble (indent : Nat) : ∀ (cs : List Char) (first : Bool),
    ∃ ds : List Char, rereadDouble indent first (cs.map .char) = ds.map .char
  | [], _ => ⟨[], rfl⟩
  | c :: cs, first => by
      obtain ⟨ds, hds⟩ := exists_chars_of_rereadDouble indent cs false
      rw [List.map_cons, rereadDouble, hds]
      split
      · exact ⟨c :: '\\' :: ' ' :: ds, rfl⟩
      · exact ⟨c :: ds, rfl⟩

/-- A text reads back as a text. -/
theorem exists_text_of_rereadText (indent : Nat) (s : String) :
    ∃ t, rereadText indent (.text s) = .text t := by
  rw [rereadText]
  split
  · exact ⟨_, rfl⟩
  · obtain ⟨ds, hds⟩ := exists_chars_of_rereadDouble indent s.toList true
    rw [Symbol.ofText, hds, Wording.ofSymbols_map_char]
    exact ⟨_, rfl⟩

theorem nextLine_not_mem_of_isPlain {s : String} (h : isPlain s = true) : nextLine ∉ s.toList := by
  obtain ⟨-, -, -, hall, -⟩ := isPlain_iff.1 h
  intro hmem
  exact absurd (hall _ hmem).2 (by decide)

theorem rereadText_of_isPlain {indent : Nat} {s : String} (h : isPlain s = true) :
    rereadText indent (.text s) = .text s := by
  have hq := isQuotable_of_isPlain h
  rw [rereadText_eq_self_iff, Survives, if_pos hq]
  exact nextLine_not_mem_of_isPlain h

/-! ## Leaves -/

/-- A value that is written as one scalar. -/
def IsLeaf : Value → Prop
  | .text _ | .halved _ => True
  | .int n => Value.hasNumeral n = true
  | .bool _ => True
  | _ => False

/-- What a leaf reads back as. -/
def rereadLeaf (indent : Nat) : Value → Value
  | .text s => .ofWording (rereadText indent (.text s))
  | .halved h => .ofWording (rereadText indent (.halved h))
  | v => v

/-- The token that a leaf is read as. -/
def leafToken (indent : Nat) : Value → Token
  | .text s => .scalar (rereadText indent (.text s)) (isPlain s)
  | .halved h => .scalar (rereadText indent (.halved h)) false
  | .int n => .scalar (.text (Value.intText n)) true
  | .bool b => .scalar (.text (if b then "true" else "false")) true
  | _ => .scalar (.text "") true

/-- The signs that start something else than a plain scalar. -/
def signs : List Char :=
  "\x00#,[]\x7b\x7d&*!|>\x27\x22%@`".toList

/-- A plain scalar may start like this: with no sign, and with a dash, a question mark or a colon
only if more follows. -/
def PlainHead (cs : List Char) : Prop :=
  ∃ x rest, cs = x :: rest ∧ isGap x = false ∧ x ∉ signs ∧
    (x = '-' ∨ x = '?' ∨ x = ':' → ∃ y more, rest = y :: more ∧ isGap y = false)

/-- How the characters of a scalar are read. -/
inductive Written (room : Room) (column : Nat) (cs : List Char) : Wording → Bool → Prop where
  | plain {rs : List (List Char)} : Phrase rs → cs = plainChars room column rs → PlainHead cs →
      Written room column cs (.text (String.ofList rs.flatten)) true
  | single {s : String} : isQuotable s = true → cs = (single room column s).toList →
      Written room column cs (.text (String.ofList (rereadQuotable s.toList))) false
  | double {row : List Symbol} : cs = (double room column row).toList →
      Written room column cs (.ofSymbols (rereadDouble room.indent true row)) false

theorem plainHead_word {room : Room} {column : Nat} {w : List Char} {rest : List (List Char)}
    (hw : PlainWord w) {x : Char} {w' : List Char} (heq : w = x :: w') (hsign : x ∉ signs)
    (hmore : x = '-' ∨ x = '?' ∨ x = ':' → w' ≠ []) :
    PlainHead (plainChars room column (w :: rest)) := by
  rw [plainChars_word hw.word]
  have hgap := hw.isGap
  rw [heq] at hgap ⊢
  refine ⟨x, _, rfl, hgap x List.mem_cons_self, hsign, fun hx => ?_⟩
  obtain ⟨y, w'', rfl⟩ := List.exists_cons_of_ne_nil (hmore hx)
  exact ⟨y, _, rfl, hgap y (by simp)⟩

theorem plainHead_of_isPlain {room : Room} {column : Nat} {s : String} (h : isPlain s = true) :
    PlainHead (plainChars room column (runs s.toList)) := by
  obtain ⟨-, -, hsign, hall, -⟩ := isPlain_iff.1 h
  have hphrase := phrase_runs h
  have hflat := flatten_runs s.toList
  generalize runs s.toList = rs at hphrase hflat ⊢
  obtain ⟨w, rest, rfl, hw, hgap⟩ : ∃ w rest, rs = w :: rest ∧ PlainWord w ∧
      isGap (rest.flatten.headD endMark) = true := by
    cases hphrase with
    | last hw => exact ⟨_, _, rfl, hw, rfl⟩
    | cons hw _ => exact ⟨_, _, rfl, hw, rfl⟩
  obtain ⟨x, w', hxw⟩ := List.exists_cons_of_ne_nil hw.word.1
  rw [← hflat, List.flatten_cons, hxw, List.cons_append] at hsign hall
  simp only [hasSign, Bool.or_eq_false_iff] at hsign
  obtain ⟨⟨-, hlist, hdash⟩, -⟩ := hsign
  refine plainHead_word hw hxw ?_ ?_
  · have hsplit : signs = '\x00' :: "#,[]\x7b\x7d&*!|>\x27\x22%@`".toList := rfl
    rw [hsplit, List.mem_cons, not_or]
    refine ⟨?_, by simpa using hlist⟩
    exact beq_eq_false_iff_ne.1 (beq_of_ordinary (hall x (by simp)).1 (by decide))
  · rintro hx rfl
    rw [List.nil_append, hgap] at hdash
    rcases hx with rfl | rfl | rfl <;> exact absurd hdash (by decide)

/-- A word on its own is a phrase of one word. -/
theorem written_word {room : Room} {column : Nat} {s : String} (hw : PlainWord s.toList)
    (hhead : ∃ x w, s.toList = x :: w ∧ x ∉ signs ∧ (x = '-' ∨ x = '?' ∨ x = ':' → w ≠ [])) :
    Written room column s.toList (.text s) true := by
  obtain ⟨x, w, heq, hsign, hmore⟩ := hhead
  have hchars : s.toList = plainChars room column [s.toList] := by
    rw [plainChars_word hw.word, plainChars, List.append_nil]
  have hplain : PlainHead s.toList := by
    rw [hchars]
    exact plainHead_word hw heq hsign hmore
  have hwritten := Written.plain (.last hw) hchars hplain
  rwa [List.flatten_singleton, String.ofList_toList] at hwritten

/-- Visible characters of ASCII make a plain word. -/
theorem plainWord_of_ascii {cs : List Char} (hne : cs ≠ [])
    (h : ∀ x ∈ cs, (0x20 < x.toNat ∧ x.toNat < 0x7f) ∧ x ≠ '#' ∧ x ≠ ':') : PlainWord cs := by
  have hother : ∀ x ∈ cs, ∀ d : Char, d.toNat ≤ 0x20 ∨ 0x7f ≤ d.toNat → x ≠ d := by
    rintro x hx d hd rfl
    have := (h x hx).1
    omega
  refine ⟨⟨hne, fun x hx => ⟨hother x hx _ (by decide), ?_⟩⟩, fun x hx => ?_,
    fun hhead => ?_, fun hlast => ?_⟩
  · simp [isWrittenBreak, hother x hx '\n' (by decide), hother x hx '\u0085' (by decide),
      hother x hx '\u2028' (by decide), hother x hx '\u2029' (by decide)]
  · have hascii : 0x20 ≤ x.toNat ∧ x.toNat ≤ 0x7e := by
      have := (h x hx).1
      omega
    simp [isSpecial, hascii]
  · exact (h '#' (List.mem_of_mem_head? hhead)).2.1 rfl
  · exact (h ':' (List.mem_of_mem_getLast? hlast)).2.2 rfl

theorem plainWord_of_letters {cs : List Char} (hne : cs ≠ []) (h : ∀ x ∈ cs, IsLetter x) :
    PlainWord cs := by
  refine plainWord_of_ascii hne fun x hx => ⟨?_, (h x hx).ne (by decide), (h x hx).ne (by decide)⟩
  have := (h x hx).range
  omega

theorem written_letters {room : Room} {column : Nat} {s : String} (hne : s.toList ≠ [])
    (h : ∀ x ∈ s.toList, IsLetter x) : Written room column s.toList (.text s) true := by
  refine written_word (plainWord_of_letters hne h) ?_
  obtain ⟨x, w, heq⟩ := List.exists_cons_of_ne_nil hne
  have hx : IsLetter x := h x (by simp [heq])
  have hsigns : ∀ d ∈ signs, ¬IsLetter d := forall_mem_of_all (by decide)
  refine ⟨x, w, heq, fun hmem => hsigns x hmem hx, ?_⟩
  rintro (rfl | rfl | rfl) <;> exact absurd hx (by decide)

theorem plainWord_of_digits {cs : List Char} (hne : cs ≠ [])
    (h : ∀ x ∈ cs, x = '-' ∨ Text.isAsciiDigit x = true) : PlainWord cs := by
  refine plainWord_of_ascii hne fun x hx => ?_
  rcases h x hx with rfl | hdigit
  · decide
  · refine ⟨?_, ne_of_isAsciiDigit hdigit (by decide), ne_of_isAsciiDigit hdigit (by decide)⟩
    simp only [Text.isAsciiDigit, Bool.and_eq_true, decide_eq_true_eq] at hdigit
    have hlow : 0x30 ≤ x.toNat := hdigit.1
    have hhigh : x.toNat ≤ 0x39 := hdigit.2
    omega

theorem written_int {room : Room} {column : Nat} (n : Int) :
    Written room column (Value.intText n).toList (.text (Value.intText n)) true := by
  obtain ⟨hall, x, hx, hdigit⟩ := intText_chars n
  have hne : (Value.intText n).toList ≠ [] := by
    intro hnil
    rw [hnil] at hx
    cases hx
  refine written_word (plainWord_of_digits hne hall) ?_
  obtain ⟨y, w, heq⟩ := List.exists_cons_of_ne_nil hne
  refine ⟨y, w, heq, ?_, ?_⟩
  · intro hmem
    rcases hall y (by simp [heq]) with rfl | hy
    · exact absurd hmem (by decide)
    · have hsigns : ∀ d ∈ signs, Text.isAsciiDigit d = false := forall_mem_of_all (by decide)
      rw [hsigns y hmem] at hy
      cases hy
  · rintro hy rfl
    -- The sign would be the last character.
    rw [heq] at hx
    obtain rfl : y = x := by simpa using hx
    rcases hy with rfl | rfl | rfl <;> exact absurd hdigit (by decide)

theorem written_text {room : Room} {column : Nat} (hsplit : room.split = true) (s : String) :
    Written room column (text room column s).toList (rereadText room.indent (.text s))
      (isPlain s) := by
  cases hs : isPlain s with
  | true =>
      have hwritten := Written.plain (phrase_runs hs) (toList_plain room column s)
        (by rw [toList_plain]; exact plainHead_of_isPlain hs)
      rw [flatten_runs, String.ofList_toList] at hwritten
      rwa [text, if_pos hs, rereadText_of_isPlain hs]
  | false =>
      rw [text, if_neg (by simp [hs]), hsplit, Bool.true_or, Bool.and_true]
      rw [rereadText]
      cases hq : isQuotable s with
      | true => exact .single hq rfl
      | false => exact .double rfl

/-- **Every leaf is written in a style that reads back.** -/
theorem written_leaf {room : Room} (hsplit : room.split = true) (column : Nat) {v : Value}
    (hv : IsLeaf v) : ∃ text plain, leafToken room.indent v = .scalar text plain ∧
      Written room column (scalar room column v).toList text plain := by
  cases v with
  | text s => exact ⟨_, _, rfl, written_text hsplit s⟩
  | halved h => exact ⟨_, _, rfl, .double rfl⟩
  | int n => exact ⟨_, _, rfl, written_int n⟩
  | bool b =>
      cases b
      · refine ⟨.text "false", true, rfl, ?_⟩
        rw [scalar, if_neg Bool.false_ne_true]
        exact written_letters (by decide) (forall_mem_of_all (by decide))
      · refine ⟨.text "true", true, rfl, ?_⟩
        rw [scalar, if_pos rfl]
        exact written_letters (by decide) (forall_mem_of_all (by decide))
  | _ => exact absurd hv (by simp [IsLeaf])

theorem value_wording (w : Wording) : Scalar.value .text w = .ok (.ofWording w) := by
  cases w <;> rfl

/-- **Every leaf reads back** as `rereadLeaf` says. -/
theorem value_leaf {indent : Nat} {v : Value} (hv : IsLeaf v) {text : Wording} {plain : Bool}
    (h : leafToken indent v = .scalar text plain) :
    Scalar.value (if plain then Scalar.impliedType text else .text) text =
      .ok (rereadLeaf indent v) := by
  cases v with
  | text s =>
      simp only [leafToken, Token.scalar.injEq] at h
      obtain ⟨rfl, rfl⟩ := h
      split
      · rename_i hs
        obtain ⟨-, -, -, -, htype⟩ := isPlain_iff.1 hs
        rw [rereadLeaf, rereadText_of_isPlain hs, Scalar.impliedType, htype]
        rfl
      · exact value_wording _
  | halved k =>
      simp only [leafToken, Token.scalar.injEq] at h
      obtain ⟨rfl, rfl⟩ := h
      exact value_wording _
  | int n =>
      simp only [leafToken, Token.scalar.injEq] at h
      obtain ⟨rfl, rfl⟩ := h
      rw [if_pos rfl, Scalar.impliedType, typeOf_intText, value_intText hv]
      rfl
  | bool b =>
      simp only [leafToken, Token.scalar.injEq] at h
      obtain ⟨rfl, rfl⟩ := h
      cases b
      · have htype : Scalar.typeOf "false" = .bool := by decide +kernel
        have hword : Scalar.boolWords.lookup "false".toLower = some false := by decide +kernel
        simp [Scalar.impliedType, htype, Scalar.value, Scalar.textValue, hword, rereadLeaf]
      · have htype : Scalar.typeOf "true" = .bool := by decide +kernel
        have hword : Scalar.boolWords.lookup "true".toLower = some true := by decide +kernel
        simp [Scalar.impliedType, htype, Scalar.value, Scalar.textValue, hword, rereadLeaf]
  | _ => exact absurd hv (by simp [IsLeaf])

/-! ## Characters -/

/-- Only characters that a text may hold. -/
def Allowed (cs : List Char) : Prop :=
  ∀ x ∈ cs, isAllowed x = true

namespace Allowed

variable {c : Char} {cs ds : List Char}

theorem nil : Allowed [] :=
  fun _ hx => nomatch hx

theorem cons (hc : isAllowed c = true) (hcs : Allowed cs) : Allowed (c :: cs) :=
  List.forall_mem_cons.2 ⟨hc, hcs⟩

theorem append (hcs : Allowed cs) (hds : Allowed ds) : Allowed (cs ++ ds) :=
  List.forall_mem_append.2 ⟨hcs, hds⟩

theorem replicate (hc : isAllowed c = true) (k : Nat) : Allowed (List.replicate k c) := by
  intro x hx
  rw [List.eq_of_mem_replicate hx]
  exact hc

theorem of_flatten {rs : List (List Char)} (h : Allowed (cs :: rs).flatten) :
    Allowed cs ∧ Allowed rs.flatten :=
  List.forall_mem_append.1 h

end Allowed

theorem allowed_lineStart (k : Nat) : Allowed (lineStart k) :=
  .cons (by decide) (.replicate (by decide) k)

theorem allowed_plainChars {room : Room} : ∀ {rs : List (List Char)} {column : Nat},
    Allowed rs.flatten → Allowed (plainChars room column rs)
  | [], _, _ => .nil
  | run :: rest, column, h => by
      obtain ⟨hrun, hrest⟩ := h.of_flatten
      rw [plainChars]
      split
      · exact (allowed_lineStart _).append (allowed_plainChars hrest)
      · exact hrun.append (allowed_plainChars hrest)

theorem allowed_breakRun {run : List Char} (h : Allowed run) : Allowed (breakRun run).toList := by
  rw [breakRun, String.toList_append, String.toList_ofList]
  refine .append ?_ h
  split
  · exact .cons (by decide) .nil
  · exact .nil

theorem allowed_doubled {run : List Char} (h : Allowed run) : Allowed (doubled run) := by
  intro x hx
  rw [doubled, List.mem_flatMap] at hx
  obtain ⟨y, hy, hxy⟩ := hx
  obtain rfl : x = y := by
    split at hxy <;> simpa using hxy
  exact h x hy

theorem allowed_singleChars {room : Room} : ∀ {rs : List (List Char)} {first : Bool}
    {column : Nat}, Allowed rs.flatten → Allowed (singleChars room first column rs)
  | [], _, _, _ => .nil
  | run :: rest, first, column, h => by
      obtain ⟨hrun, hrest⟩ := h.of_flatten
      rw [singleChars]
      split
      · exact ((allowed_breakRun hrun).append (.replicate (by decide) _)).append
          (allowed_singleChars hrest)
      · split
        · exact (allowed_lineStart _).append (allowed_singleChars hrest)
        · exact (allowed_doubled hrun).append (allowed_singleChars hrest)

theorem allowed_escape {s : Symbol} {e : String} (h : escape? s = some e) : Allowed e.toList := by
  have hletters : ∀ p ∈ escapes, isAllowed p.1 = true := by decide
  intro x hx
  rcases escape?_cases h with ⟨letter, y, -, hletter, heq⟩ | ⟨letter, w, hw, -, hwidth, hn, heq⟩
  · rw [heq] at hx
    rcases List.mem_cons.1 hx with rfl | hx
    · decide
    · rw [List.mem_singleton.1 hx]
      exact hletters (letter, y) (mem_of_lookup hletter)
  · obtain ⟨ds, hds, -, hdigits, -⟩ := toList_upperHex hw hn
    rw [heq, hds] at hx
    rcases List.mem_cons.1 hx with rfl | hx
    · decide
    · rcases List.mem_cons.1 hx with rfl | hx
      · unfold escapeWidth? at hwidth
        split at hwidth <;> first | decide | cases hwidth
      · obtain ⟨d, hd, rfl⟩ := List.mem_map.1 hx
        have hd := hdigits d hd
        interval_cases d <;> decide

theorem isAllowed_of_escape?_eq_none {x : Char} (h : escape? (.char x) = none) :
    isAllowed x = true := by
  unfold escape? at h
  split at h
  · cases h
  · dsimp only [Symbol.number] at h
    split at h
    · rename_i hrange
      simp only [Bool.and_eq_true, Bool.or_eq_true, decide_eq_true_eq] at hrange
      simp only [isAllowed, Bool.or_eq_true, Bool.and_eq_true, beq_iff_eq, decide_eq_true_eq]
      omega
    · split at h
      · cases h
      · split at h <;> cases h

theorem allowed_guard (next : Option Symbol) : Allowed (Writer.guard next).toList := by
  unfold Writer.guard
  split
  · exact .cons (by decide) .nil
  · exact .nil

theorem allowed_doubleChars {room : Room} : ∀ {row : List Symbol} {first fresh : Bool}
    {column : Nat}, Allowed (doubleChars room first column fresh row)
  | [], _, _, _ => .nil
  | s :: rest, first, fresh, column => by
      have hfold : Allowed ('\\' :: lineStart room.indent) :=
        .cons (by decide) (allowed_lineStart _)
      rw [doubleChars]
      cases h : escape? s with
      | some e =>
          simp only
          split
          · exact (((allowed_escape h).append hfold).append (allowed_guard _)).append
              allowed_doubleChars
          · exact (allowed_escape h).append allowed_doubleChars
      | none =>
          obtain ⟨x, rfl⟩ := exists_char_of_escape?_eq_none h
          have hx : Allowed [x] := .cons (isAllowed_of_escape?_eq_none h) .nil
          simp only
          split
          · exact ((hfold.append (allowed_guard _)).append hx).append allowed_doubleChars
          · exact hx.append allowed_doubleChars

/-- **Only characters that a text may hold are written.** -/
theorem Written.allowed {room : Room} {column : Nat} {cs : List Char} {text : Wording}
    {plain : Bool} (h : Written room column cs text plain) : Allowed cs := by
  cases h with
  | plain hrs heq _ =>
      rw [heq]
      exact allowed_plainChars fun x hx => isAllowed_of_ordinary (hrs.ordinary x hx)
  | @single s hs heq =>
      have hall : Allowed (runs s.toList).flatten := by
        rw [flatten_runs]
        exact fun x hx => isAllowed_of_ordinary ((isQuotable_iff.1 hs).1 x hx)
      rw [heq, toList_single]
      exact .cons (by decide) ((allowed_singleChars hall).append (.cons (by decide) .nil))
  | double heq =>
      rw [heq, toList_double]
      exact .cons (by decide) (allowed_doubleChars.append (.cons (by decide) .nil))

/-! ## Keys -/

/-- A word that may stand before a colon as it is: a few small letters that are no truth value or
the like. -/
def IsKeyWord (k : String) : Prop :=
  isPlain k = true ∧ (∀ x ∈ k.toList, IsLetter x) ∧ k.toList.length < 100

instance (k : String) : Decidable (IsKeyWord k) :=
  have : Decidable (∀ x ∈ k.toList, IsLetter x) := List.decidableBAll IsLetter k.toList
  inferInstanceAs (Decidable
    (isPlain k = true ∧ (∀ x ∈ k.toList, IsLetter x) ∧ k.toList.length < 100))

theorem toList_key {k : String} (hk : IsKeyWord k) (indent column : Nat) :
    (scalar ⟨indent, false⟩ column (.text k)).toList = k.toList := by
  rw [scalar, text, if_pos hk.1, toList_plain, plainChars_unsplit rfl, flatten_runs]

theorem isSimpleKey_of_isKeyWord {k : String} (hk : IsKeyWord k) :
    isSimpleKey (.text k) = true := by
  obtain ⟨hplain, -, hshort⟩ := hk
  obtain ⟨hne, -, -, hall, -⟩ := isPlain_iff.1 hplain
  have htag : "!!str".length = 5 := rfl
  have hbreak : (Symbol.ofText k).any (fun s => s.char?.any isWrittenBreak) = false := by
    rw [List.any_eq_false]
    intro s hs
    obtain ⟨x, hx, rfl⟩ := List.mem_map.mp hs
    simp [Symbol.char?, (hall x hx).2]
  simp only [isSimpleKey, keySymbols, tagLength, hbreak, htag, Bool.and_eq_true, Bool.not_eq_true',
    List.isEmpty_eq_false_iff, Bool.not_false, and_true, decide_eq_true_eq]
  simp only [Symbol.ofText, ne_eq, List.map_eq_nil_iff, List.length_map]
  exact ⟨hne, by omega⟩

theorem IsKeyWord.plainWord {k : String} (hk : IsKeyWord k) : PlainWord k.toList :=
  plainWord_of_letters (isPlain_iff.1 hk.1).1 hk.2.1

end Limn.Yaml
