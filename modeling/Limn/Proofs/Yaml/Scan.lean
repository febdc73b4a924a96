import Limn.Proofs.Yaml.Leaf

/-! # From characters to tokens

One step of the scanner passes over the gap before the next token, closes the blocks to the right of
it and reads it. A state is *poised* at a position when its next step reads the token there, with
the blocks on the way still to be closed, so a block that ends can be closed in the statement before
the scanner has closed it. States lead to one another by steps that each take a character or more,
so the bound of the scanner is never met.
-/

namespace Limn.Yaml

open Writer

namespace Scan

/-! ## Steps -/

/-- Add the token at the current position to the row. -/
def dispatch (s : Scan) : Except Fault Scan :=
  let inFlow := s.flow != 0
  let gapAfter := isGap (s.cursor.peekAt 1)
  match s.cursor.peek with
  | '\x00' => s.streamEnd
  | '[' => s.openBracket .flowSequenceStart
  | '\x7b' => s.openBracket .flowMappingStart
  | ']' => s.closeBracket .flowSequenceEnd
  | '\x7d' => s.closeBracket .flowMappingEnd
  | ',' => s.comma
  | '*' => s.lexeme anchorName .alias
  | '&' => s.lexeme anchorName .anchor
  | '!' => s.lexeme tagAt .tag
  | '\x27' => s.lexeme (quotedScalar false) (.scalar · false)
  | '\x22' => s.lexeme (quotedScalar true) (.scalar · false)
  | ch =>
    if ch == '%' && s.cursor.column == 0 then s.directive
    else if ch == '-' && s.cursor.column == 0 && s.cursor.atMarker then s.marker .documentStart
    else if ch == '.' && s.cursor.column == 0 && s.cursor.atMarker then s.marker .documentEnd
    else if ch == '-' && gapAfter then s.dash
    else if ch == '?' && (inFlow || gapAfter) then s.questionMark
    else if ch == ':' && (inFlow || gapAfter) then s.colon
    else if ch == '|' && !inFlow then s.block false
    else if ch == '>' && !inFlow then s.block true
    else if s.startsPlain then s.plain
    else .error .malformed

theorem step_eq (s : Scan) : s.step = (s.skipMark.gap s.cursor.budget).forgetStale.bind fun s =>
    (s.unwind s.cursor.column).dispatch :=
  rfl

/-- The scanner gets from one state to another, in no more steps than characters. -/
def Leads (s t : Scan) : Prop :=
  ∃ n, n + t.cursor.rest.length ≤ s.cursor.rest.length ∧
    ∀ bound, finish (bound + n) s = finish bound t

theorem Leads.trans {s t u : Scan} (h : Leads s t) (h' : Leads t u) : Leads s u := by
  obtain ⟨n, hn, heq⟩ := h
  obtain ⟨m, hm, heq'⟩ := h'
  refine ⟨m + n, by omega, fun bound => ?_⟩
  rw [← Nat.add_assoc, heq, heq']

theorem Leads.of_step {s t : Scan} (h : s.step = .ok t) (hdone : t.done = false)
    (hless : t.cursor.rest.length < s.cursor.rest.length) : Leads s t := by
  refine ⟨1, by omega, fun bound => ?_⟩
  rw [finish, h]
  simp [hdone]

/-! ## States between tokens -/

/-- Outside brackets, with no possible key, at a place where a key may start. -/
def ready (c : Cursor) (ts : List Token) (indent : Int) (outer : List Int) : Scan :=
  { cursor := c, tokens := ts.toArray, indent, outer }

/-- After the colon of a key. -/
def afterColon (c : Cursor) (ts : List Token) (indent : Int) (outer : List Int) : Scan :=
  { ready c ts indent outer with keyAllowed := false }

/-- The next step reads the token at this position, from this state. -/
def Poised (s : Scan) (c : Cursor) (ts : List Token) (indent : Int) (outer : List Int) : Prop :=
  s.step = ((ready c ts indent outer).unwind c.column).dispatch ∧
    c.rest.length ≤ s.cursor.rest.length

/-- **A block closes** when the next token lies to the left of it. -/
theorem Poised.close {s : Scan} {c : Cursor} {ts : List Token} {indent i : Int} {outer : List Int}
    (h : Poised s c ts indent (i :: outer)) (hless : (c.column : Int) < indent) :
    Poised s c (ts ++ [.blockEnd]) i outer := by
  refine ⟨h.1.trans ?_, h.2⟩
  simp only [unwind, ready, beq_self_eq_true, if_true]
  rw [closeBlocks, if_pos hless]
  simp [emit]

theorem unwind_of_le {s : Scan} {column : Int} (h : s.indent ≤ column) : s.unwind column = s := by
  unfold unwind
  split
  · cases s.outer with
    | nil => rfl
    | cons i outer => rw [closeBlocks, if_neg (by simpa using h)]
  · rfl

/-- At a token that lies in the enclosing block, nothing closes. -/
theorem Poised.step_eq {s : Scan} {c : Cursor} {ts : List Token} {indent : Int} {outer : List Int}
    (h : Poised s c ts indent outer) (hle : indent ≤ c.column) :
    s.step = (ready c ts indent outer).dispatch := by
  rw [h.1, unwind_of_le hle]

/-! ## Gaps -/

/-- What may follow the blanks of a gap. -/
def EndsGap (cs : List Char) : Prop :=
  ∀ x ∈ cs.head?, x ≠ ' ' ∧ x ≠ '#' ∧ x ≠ '\ufeff' ∧ isBreak x = false

theorem skipMark_of_ne {s : Scan} {cs : List Char} (h : s.cursor.Holds cs)
    (hcs : cs.head? ≠ some '\ufeff') : s.skipMark = s := by
  have hpeek : (s.cursor.peek == '\ufeff') = false := by
    cases cs with
    | nil => rw [h.peek_nil]; decide
    | cons x cs => simpa [h.peek] using hcs
  rw [skipMark, hpeek, Bool.and_false, if_neg Bool.false_ne_true]

theorem gap_blanks {s : Scan} {cs : List Char} {k bound : Nat}
    (h : s.cursor.Holds (List.replicate k ' ' ++ cs)) (hcs : EndsGap cs) :
    s.gap (bound + 1) = { s with cursor := s.cursor.skip k } := by
  have hskip := h.skip
  rw [List.length_replicate] at hskip
  have hcomment := h.skipComment fun x hx => ⟨(hcs x hx).1, (hcs x hx).2.1⟩
  have hbreak := hskip.lineBreak_of_not fun x hx => (hcs x hx).2.2.2
  simp only [gap, hcomment, hbreak]

theorem gap_line {s : Scan} {cs : List Char} {k bound : Nat}
    (h : s.cursor.Holds (lineStart k ++ cs)) (hcs : EndsGap cs) :
    s.gap (bound + 2) = { s with
      cursor := s.cursor.next.skip k, keyAllowed := s.keyAllowed || s.flow == 0 } := by
  rw [lineStart, List.cons_append] at h
  have hcomment : s.cursor.skipComment = s.cursor.skip 0 :=
    Cursor.Holds.skipComment h (by simp)
  have hbreak := h.lineBreak (.inl rfl)
  rw [gap, hcomment, Cursor.skip]
  simp only [hbreak]
  exact gap_blanks h.next hcs

theorem forgetStale_of_fresh {s : Scan} (h : ∀ p ∈ s.keys, s.isStale p.2 = false) :
    s.forgetStale = .ok s := by
  have hany : (s.keys.any fun p => s.isStale p.2 && p.2.required) = false := by
    rw [List.any_eq_false]
    intro p hp
    simp [h p hp]
  have hfilter : (s.keys.filter fun p => !s.isStale p.2) = s.keys := by
    rw [List.filter_eq_self]
    intro p hp
    simp [h p hp]
  simp [forgetStale, hany, hfilter]

/-! ## Scalars -/

theorem startsPlain_of {s : Scan} {x : Char} {cs : List Char} (hc : s.cursor.Holds (x :: cs))
    (hflow : s.flow = 0) (hgap : isGap x = false) (hsign : x ∉ signs)
    (hmore : x = '-' ∨ x = '?' ∨ x = ':' → isGap (cs.headD endMark) = false) :
    s.startsPlain = true := by
  rw [startsPlain, hc.peek, hc.peekAt_one, hflow]
  by_cases hx : x = '-' ∨ x = '?' ∨ x = ':'
  · rw [hmore hx]
    rcases hx with rfl | rfl | rfl <;> simp
  · have hlist : ∀ d ∈ "-?:,[]\x7b\x7d#&*!|>\x27\x22%@`".toList,
        d ∈ signs ∨ d = '-' ∨ d = '?' ∨ d = ':' := forall_mem_of_all (by decide)
    have hnot : ("-?:,[]\x7b\x7d#&*!|>\x27\x22%@`".toList.contains x) = false := by
      rw [List.contains_eq_mem, decide_eq_false_iff_not]
      intro hmem
      rcases hlist x hmem with hmem | hmem
      · exact hsign hmem
      · exact hx hmem
    rw [hgap, hnot]
    rfl

/-- **A plain scalar is read** where nothing else can start. -/
theorem dispatch_plain {s : Scan} {x : Char} {cs : List Char} (hc : s.cursor.Holds (x :: cs))
    (hflow : s.flow = 0) (hgap : isGap x = false) (hsign : x ∉ signs)
    (hmore : x = '-' ∨ x = '?' ∨ x = ':' → isGap (cs.headD endMark) = false)
    (hcol : s.cursor.column ≠ 0 ∨ IsLetter x) : s.dispatch = s.plain := by
  have hstarts := startsPlain_of hc hflow hgap hsign hmore
  have hne : ∀ d ∈ signs, x ≠ d := by
    rintro d hd rfl
    exact hsign hd
  have hnot : ∀ d ∈ signs, (x == d) = false := fun d hd => beq_eq_false_iff_ne.2 (hne d hd)
  have hmarker : ∀ d, ¬IsLetter d → (x == d && s.cursor.column == 0) = false := by
    intro d hd
    rcases hcol with hcol | hletter
    · simp [hcol]
    · simp [hletter.ne hd]
  have hbefore : ∀ d, d = '-' ∨ d = '?' ∨ d = ':' →
      (x == d && isGap (cs.headD endMark)) = false := by
    intro d hd
    by_cases hx : x = d
    · subst hx
      rw [hmore hd, Bool.and_false]
    · rw [beq_eq_false_iff_ne.2 hx, Bool.false_and]
  unfold dispatch
  rw [hc.peek, hc.peekAt_one, hflow]
  dsimp only
  split
  iterate 11
    · exact absurd rfl (hne _ (by decide))
  · rw [hnot '%' (by decide), hmarker '-' (by decide), hmarker '.' (by decide),
      hbefore '-' (by simp), hnot '|' (by decide), hnot '>' (by decide), hstarts]
    simp only [bne_self_eq_false, Bool.false_or, hbefore '?' (by simp), hbefore ':' (by simp)]
    rfl

/-! ## Keys -/

/-- After a word that may be a key. -/
def atColon (c : Cursor) (ts : List Token) (indent : Int) (outer : List Int) (key : SimpleKey) :
    Scan :=
  { afterColon c ts indent outer with keys := [(0, key)] }

theorem insertIdx_append {α : Type} (a : α) : ∀ (as bs : List α),
    (as ++ bs).insertIdx as.length a = as ++ a :: bs
  | [], _ => rfl
  | _ :: as, bs => congrArg _ (insertIdx_append a as bs)

/-- A word at the start of a line or after a dash may be a key. -/
theorem step_word {s : Scan} {c : Cursor} {ts : List Token} {indent : Int} {outer : List Int}
    {k : String} {cs : List Char} (h : Poised s c ts indent outer) (hle : indent ≤ c.column)
    (hk : IsKeyWord k) (hc : c.Holds (k.toList ++ ':' :: cs))
    (hcs : isGap (cs.headD endMark) = true) :
    ∃ required, s.step = .ok (atColon (c.skip k.toList.length) (ts ++ [Token.scalar k true]) indent
      outer ⟨ts.length, required, c.index, c.line, c.column⟩) := by
  have hscalar : plainScalar false indent c = (k, false, c.skip k.toList.length) := by
    rw [plainScalar_key hk.plainWord hcs hc, String.ofList_toList]
  obtain ⟨x, w, heq⟩ := List.exists_cons_of_ne_nil hk.plainWord.word.1
  have hx : IsLetter x := hk.2.1 x (by simp [heq])
  have hplain : (ready c ts indent outer).dispatch = (ready c ts indent outer).plain := by
    rw [heq, List.cons_append] at hc
    refine dispatch_plain hc rfl (hk.plainWord.isGap x (by simp [heq])) ?_ ?_ (.inr hx)
    · have hsigns : ∀ d ∈ signs, ¬IsLetter d := forall_mem_of_all (by decide)
      exact fun hmem => hsigns x hmem hx
    · rintro (rfl | rfl | rfl) <;> exact absurd hx (by decide)
  refine ⟨(ready c ts indent outer).flow == 0 && indent == c.column, ?_⟩
  rw [h.step_eq hle, hplain]
  simp [plain, rememberKey, forgetKey, ready, atColon, afterColon, emit, hscalar, bind, Except.bind]

theorem forgetStale_atColon {c : Cursor} {ts : List Token} {indent : Int} {outer : List Int}
    {key : SimpleKey} (hline : key.line = c.line) (hindex : c.index ≤ key.index + 1024) :
    (atColon c ts indent outer key).forgetStale = .ok (atColon c ts indent outer key) := by
  refine forgetStale_of_fresh fun p hp => ?_
  rw [List.mem_singleton.1 hp]
  simp only [isStale, atColon, afterColon, ready, hline, bne_self_eq_false, Bool.false_or]
  exact decide_eq_false (by omega)

/-- The colon makes a key of the word before it, which may open a mapping. -/
theorem colon_atColon {c : Cursor} {ts : List Token} {indent : Int} {outer : List Int}
    {key : SimpleKey} {word : Token} (hplace : key.place = ts.length) (hcol : indent ≤ key.column) :
    (atColon c (ts ++ [word]) indent outer key).colon = .ok (afterColon c.next
      (ts ++ (if indent < key.column then [Token.blockMappingStart] else []) ++
        [Token.key, word, Token.value])
      key.column (if indent < key.column then indent :: outer else outer)) := by
  by_cases hopen : indent < key.column
  · simp [colon, atColon, afterColon, ready, insertToken, deeper, enter, emitSign, hplace, hopen,
      insertIdx_append, Cursor.skip]
  · have hsame : indent = key.column := by omega
    simp [colon, atColon, afterColon, ready, insertToken, deeper, emitSign, hplace, hsame,
      insertIdx_append, Cursor.skip]

theorem step_colon {c : Cursor} {ts : List Token} {indent : Int} {outer : List Int}
    {key : SimpleKey} {word : Token} {cs : List Char} (hle : indent ≤ c.column)
    (hplace : key.place = ts.length) (hline : key.line = c.line)
    (hindex : c.index ≤ key.index + 1024) (hcol : indent ≤ key.column)
    (hc : c.Holds (':' :: cs)) (hcs : isGap (cs.headD endMark) = true) :
    (atColon c (ts ++ [word]) indent outer key).step = .ok (afterColon c.next
      (ts ++ (if indent < key.column then [Token.blockMappingStart] else []) ++
        [Token.key, word, Token.value])
      key.column (if indent < key.column then indent :: outer else outer)) := by
  have hmark : (atColon c (ts ++ [word]) indent outer key).skipMark =
      atColon c (ts ++ [word]) indent outer key := skipMark_of_ne hc (by simp)
  have hgap : (atColon c (ts ++ [word]) indent outer key).gap c.budget =
      atColon c (ts ++ [word]) indent outer key := by
    rw [hc.budget]
    exact @gap_blanks _ (':' :: cs) 0 _ hc (by simp [EndsGap, isBreak])
  have hdispatch : (atColon c (ts ++ [word]) indent outer key).dispatch =
      (atColon c (ts ++ [word]) indent outer key).colon := by
    have hpeek : (atColon c (ts ++ [word]) indent outer key).cursor.peek = ':' := hc.peek
    have hone : isGap ((atColon c (ts ++ [word]) indent outer key).cursor.peekAt 1) = true := by
      rw [← hcs]
      exact congrArg _ hc.peekAt_one
    unfold dispatch
    rw [hpeek, hone]
    rfl
  rw [step_eq, hmark]
  show ((atColon c (ts ++ [word]) indent outer key).gap c.budget).forgetStale.bind _ = _
  rw [hgap, forgetStale_atColon hline hindex]
  show ((atColon c (ts ++ [word]) indent outer key).unwind c.column).dispatch = _
  rw [unwind_of_le hle, hdispatch, colon_atColon hplace hcol]

/-- **A key is read** in two steps. -/
theorem leads_key {s : Scan} {c : Cursor} {ts : List Token} {indent : Int} {outer : List Int}
    {k : String} {cs : List Char} (h : Poised s c ts indent outer) (hle : indent ≤ c.column)
    (hk : IsKeyWord k) (hc : c.Holds (k.toList ++ ':' :: cs))
    (hcs : isGap (cs.headD endMark) = true) :
    ∃ c', Leads s (afterColon c'
        (ts ++ (if indent < c.column then [Token.blockMappingStart] else []) ++
          [Token.key, Token.scalar k true, Token.value])
        c.column (if indent < c.column then indent :: outer else outer)) ∧
      c'.Holds cs ∧ c'.column = c.column + k.toList.length + 1 := by
  obtain ⟨required, hword⟩ := step_word h hle hk hc hcs
  obtain ⟨hcol, hline, hindex⟩ := Cursor.skip_flat hc hk.plainWord.isFlat
  have hskip := hc.skip
  -- The word is short enough to be still taken for a key at the colon.
  have hcolon := @step_colon (c.skip k.toList.length) ts indent outer
    ⟨ts.length, required, c.index, c.line, c.column⟩ (.scalar k true) cs (by omega) rfl hline.symm
    (by have := hk.2.2; show _ ≤ c.index + 1024; omega) hle hskip hcs
  refine ⟨_, ?_, hskip.next, ?_⟩
  · refine .trans (.of_step hword rfl ?_) (.of_step hcolon rfl ?_)
    · have hpoised := h.2
      rw [hc.1] at hpoised
      show (c.skip k.toList.length).rest.length < _
      rw [hskip.1]
      have hpos := List.length_pos_iff.2 hk.plainWord.word.1
      simp only [List.length_append, List.length_cons] at hpoised ⊢
      omega
    · show (c.skip k.toList.length).next.rest.length < (c.skip k.toList.length).rest.length
      rw [hskip.1, hskip.next.1]
      simp
  · rw [(hskip.next_flat (by decide)).1, hcol]

/-! ## Values -/

theorem step_of_gap {s t : Scan} (hmark : s.skipMark = s) (hgap : s.gap s.cursor.budget = t)
    (hkeys : t.keys = []) : s.step = (t.unwind t.cursor.column).dispatch := by
  rw [step_eq, hmark, hgap, forgetStale_of_fresh (by simp [hkeys])]
  rfl

theorem poised_ready {c : Cursor} {ts : List Token} {indent : Int} {outer : List Int}
    {cs : List Char} {k : Nat} (hc : c.Holds (List.replicate k ' ' ++ cs)) (hcs : EndsGap cs) :
    Poised (ready c ts indent outer) (c.skip k) ts indent outer := by
  have hmark : (List.replicate k ' ' ++ cs).head? ≠ some '\ufeff' := by
    cases k with
    | zero => exact fun h => (hcs _ h).2.2.1 rfl
    | succ k => simp [List.replicate_succ]
  have hskip := hc.skip
  rw [List.length_replicate] at hskip
  refine ⟨step_of_gap (skipMark_of_ne hc hmark) ?_ rfl, ?_⟩
  · show (ready c ts indent outer).gap c.budget = _
    rw [hc.budget]
    exact gap_blanks hc hcs
  · show (c.skip k).rest.length ≤ c.rest.length
    rw [hskip.1, hc.1, List.length_append]
    omega

/-- After a line end, the next token is the first of the next line. -/
theorem poised_line {c : Cursor} {ts : List Token} {indent : Int} {outer : List Int} {k : Nat}
    {cs : List Char} (hc : c.Holds (lineStart k ++ cs)) (hcs : EndsGap cs) :
    ∃ c', Poised (afterColon c ts indent outer) c' ts indent outer ∧ c'.Holds cs ∧
      c'.column = k := by
  obtain ⟨hskip, hcol⟩ := lineStart_column hc
  refine ⟨c.next.skip k, ⟨step_of_gap (skipMark_of_ne hc (by simp [lineStart])) ?_ rfl, ?_⟩,
    hskip, hcol⟩
  · show (afterColon c ts indent outer).gap c.budget = _
    have hbudget : c.budget = (List.replicate k ' ' ++ cs).length + 2 := by
      rw [hc.budget]
      simp [lineStart]
    rw [hbudget]
    exact gap_line hc hcs
  · show (c.next.skip k).rest.length ≤ c.rest.length
    rw [hskip.1, hc.1, List.length_append]
    omega

theorem step_afterColon {c : Cursor} {ts : List Token} {indent : Int} {outer : List Int}
    {cs : List Char} (hc : c.Holds (' ' :: cs)) (hcs : EndsGap cs) (hle : indent ≤ c.next.column) :
    (afterColon c ts indent outer).step = (afterColon c.next ts indent outer).dispatch := by
  have hstep := @step_of_gap (afterColon c ts indent outer) (afterColon c.next ts indent outer)
    (skipMark_of_ne hc (by simp)) (by
      show (afterColon c ts indent outer).gap c.budget = _
      rw [hc.budget]
      exact @gap_blanks _ cs 1 _ hc hcs) rfl
  rw [hstep]
  exact congrArg dispatch (unwind_of_le hle)

/-- A scalar starts with no gap. -/
theorem endsGap_of_written {room : Room} {column : Nat} {cs more : List Char} {text : Wording}
    {plain : Bool} (h : Written room column cs text plain) : EndsGap (cs ++ more) := by
  cases h with
  | plain hrs heq _ =>
      obtain ⟨x, ds, hx, hgap, hsharp, hord⟩ := phrase_head hrs room column
      simp only [isGap, isSpaceOrEnd, isLineEnd, Bool.or_eq_false_iff, beq_eq_false_iff_ne] at hgap
      have hbom := beq_eq_false_iff_ne.1 (beq_of_ordinary hord (d := '\ufeff') (by decide))
      rw [heq, hx]
      simpa [EndsGap] using ⟨hgap.2.1, hsharp, hbom, hgap.2.2.2⟩
  | single _ heq =>
      rw [heq, toList_single]
      simp [EndsGap, isBreak]
  | double heq =>
      rw [heq, toList_double]
      simp [EndsGap, isBreak]

theorem dispatch_quoted {c c' : Cursor} {ts : List Token} {indent : Int} {outer : List Int}
    {double : Bool} {text : Wording} {cs : List Char}
    (hc : c.Holds ((if double then '\x22' else '\x27') :: cs))
    (hread : quotedScalar double c = .ok (text, c')) :
    (afterColon c ts indent outer).dispatch =
      .ok (afterColon c' (ts ++ [.scalar text false]) indent outer) := by
  have hpeek : (afterColon c ts indent outer).cursor.peek = (if double then '\x22' else '\x27') :=
    hc.peek
  unfold dispatch
  rw [hpeek]
  cases double
  all_goals
    simp [lexeme, rememberKey, afterColon, ready, emit, hread, bind, Except.bind]

theorem dispatch_quoted_line {c c' : Cursor} {ts : List Token} {indent j : Nat} {outer : List Int}
    {double : Bool} {text : Wording} {cs rest : List Char}
    (hc : c.Holds ((if double then '\x22' else '\x27') :: cs))
    (hread : quotedScalar double c = .ok (text, c')) (hc' : c'.Holds (lineStart j ++ rest))
    (hshort : c'.rest.length ≤ c.rest.length) (hrest : StartsLine rest) :
    ∃ s c'', (afterColon c ts indent outer).dispatch = .ok s ∧ s.done = false ∧
      s.cursor.rest.length ≤ c.rest.length ∧
      Poised s c'' (ts ++ [Token.scalar text false]) indent outer ∧ c''.Holds rest ∧
      c''.column = j := by
  obtain ⟨c'', hpoised, hend⟩ :=
    @poised_line c' (ts ++ [Token.scalar text false]) indent outer j rest hc' hrest.head
  exact ⟨_, c'', dispatch_quoted hc hread, rfl, hshort, hpoised, hend⟩

/-- **A scalar is read**, up to the first token of the next line. -/
theorem dispatch_scalar {c : Cursor} {ts : List Token} {indent j column : Nat} {outer : List Int}
    {room : Room} {cs rest : List Char} {text : Wording} {plain : Bool}
    (hwritten : Written room column cs text plain) (hsplit : room.split = true)
    (hroom : indent < room.indent) (hcolumn : room.indent ≤ column)
    (hc : c.Holds (cs ++ (lineStart j ++ rest))) (hcol : indent < c.column) (hj : j ≤ indent)
    (hrest : StartsLine rest) :
    ∃ s c', (afterColon c ts indent outer).dispatch = .ok s ∧ s.done = false ∧
      s.cursor.rest.length ≤ c.rest.length ∧
      Poised s c' (ts ++ [Token.scalar text plain]) indent outer ∧ c'.Holds rest ∧
      c'.column = j := by
  have hlength : ∀ {c' : Cursor} {ds : List Char}, c'.Holds ds →
      ds.length ≤ (lineStart j ++ rest).length → c'.rest.length ≤ c.rest.length := by
    intro c' ds hc' hds
    rw [hc.1, hc'.1, List.length_append]
    omega
  cases hwritten with
  | @plain rs hrs heq hhead =>
      rw [heq] at hc hhead
      obtain ⟨c', hread, hc', hcol'⟩ := plainScalar_phrase hrs hroom hcol hj hrest hc
      have hpoised := @poised_ready c'
        (ts ++ [Token.scalar (.text (String.ofList rs.flatten)) true]) indent outer rest 0 hc'
        hrest.head
      refine ⟨_, c', ?_, rfl, hlength hc' (by simp), hpoised, hc', hcol'⟩
      obtain ⟨x, ds, hx, hgap, hsign, hmore⟩ := hhead
      rw [hx, List.cons_append] at hc
      have hplain := @dispatch_plain (afterColon c ts indent outer) x _ hc rfl hgap hsign (by
        intro hdash
        obtain ⟨y, more, rfl, hy⟩ := hmore hdash
        exact hy) (.inl (by show c.column ≠ 0; omega))
      rw [hplain]
      simp [Scan.plain, rememberKey, afterColon, ready, emit, hread, bind, Except.bind]
  | @single s hs heq =>
      rw [heq] at hc
      obtain ⟨c', hread, hc'⟩ := quotedScalar_single (by omega) hs (by simp [lineStart]) hc
      have hshort := hlength hc' (Nat.le_refl _)
      rw [toList_single, List.cons_append] at hc
      exact @dispatch_quoted_line c c' ts indent j outer false _ _ _ hc hread hc' hshort hrest
  | double heq =>
      rw [heq] at hc
      obtain ⟨c', hread, hc'⟩ := quotedScalar_double (by omega) hsplit hcolumn hc
      have hshort := hlength hc' (Nat.le_refl _)
      rw [toList_double, List.cons_append] at hc
      exact @dispatch_quoted_line c c' ts indent j outer true _ _ _ hc hread hc' hshort hrest

/-- **A leaf is read** in one step, up to the first token of the next line. -/
theorem leads_leaf {c : Cursor} {ts : List Token} {indent j column : Nat} {outer : List Int}
    {v : Value} {rest : List Char} (hv : IsLeaf v) (hcolumn : Writer.deeper indent ≤ column)
    (hc : c.Holds (' ' :: (scalar ⟨Writer.deeper indent, true⟩ column v).toList ++
      (lineStart j ++ rest)))
    (hcol : indent < c.column) (hj : j ≤ indent) (hrest : StartsLine rest) :
    ∃ s c', Leads (afterColon c ts indent outer) s ∧
      Poised s c' (ts ++ [leafToken (Writer.deeper indent) v]) indent outer ∧ c'.Holds rest ∧
      c'.column = j := by
  obtain ⟨text, plain, htoken, hwritten⟩ :=
    @written_leaf ⟨Writer.deeper indent, true⟩ rfl column v hv
  rw [List.cons_append] at hc
  have hnext := (hc.next_flat isFlat_space).1
  have hstep := @step_afterColon c ts indent outer _ hc (endsGap_of_written hwritten) (by omega)
  obtain ⟨s, c', hdispatch, hdone, hless, hpoised⟩ := @dispatch_scalar c.next ts indent j column
    outer _ _ rest text plain hwritten rfl (by simp [Writer.deeper]) hcolumn hc.next (by omega) hj
    hrest
  rw [htoken]
  refine ⟨s, c', .of_step (hstep.trans hdispatch) hdone ?_, hpoised⟩
  show s.cursor.rest.length < c.rest.length
  rw [hc.next.1] at hless
  rw [hc.1, List.length_cons]
  omega

/-! ## Items -/

/-- **An item is announced** by a dash in the column of the mapping around its sequence. -/
theorem leads_dash {s : Scan} {c : Cursor} {ts : List Token} {indent : Nat} {outer : List Int}
    {cs : List Char} (h : Poised s c ts indent outer) (hcol : c.column = indent)
    (hc : c.Holds ('-' :: ' ' :: cs)) (hcs : EndsGap cs) :
    ∃ s' c', Leads s s' ∧ Poised s' c' (ts ++ [.blockEntry]) indent outer ∧ c'.Holds cs ∧
      c'.column = Writer.deeper indent := by
  have hmark : c.atMarker = false := by
    unfold Cursor.atMarker
    rw [hc.1]
    rfl
  have hdispatch : (ready c ts indent outer).dispatch =
      .ok (ready c.next (ts ++ [.blockEntry]) indent outer) := by
    have hpeek : (ready c ts indent outer).cursor.peek = '-' := hc.peek
    have hone : (ready c ts indent outer).cursor.peekAt 1 = ' ' := hc.peekAt_one
    have hmark' : (ready c ts indent outer).cursor.atMarker = false := hmark
    unfold dispatch
    rw [hpeek, hone, hmark']
    simp [isGap, isSpaceOrEnd, dash, ready, openBlock, Scan.deeper, forgetKey, emitSign, hcol,
      Cursor.skip, bind, Except.bind]
  have hstep := h.step_eq (by omega)
  refine ⟨_, _, .of_step (hstep.trans hdispatch) rfl ?_, @poised_ready c.next _ _ _ cs 1 hc.next hcs,
    hc.next.next, ?_⟩
  · have hpoised := h.2
    show c.next.rest.length < _
    rw [hc.1, List.length_cons] at hpoised
    rw [hc.next.1]
    omega
  · show c.next.next.column = _
    rw [(hc.next.next_flat isFlat_space).1, (hc.next_flat (by decide)).1, hcol, Writer.deeper]

end Scan

end Limn.Yaml
