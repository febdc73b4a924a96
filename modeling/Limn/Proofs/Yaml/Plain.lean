import Limn.Proofs.Yaml.Style
import Limn.Yaml.Lexeme

/-! # Plain scalars read back

A phrase is written with some of its single blanks turned into line ends, and a line end between two
words reads as one blank. So a phrase reads back as itself wherever its lines were broken, as long
as the further lines lie to the right of the enclosing block.
-/

namespace Limn.Yaml

open Writer

/-! ## What is written -/

/-- A line feed and so many blanks. -/
def lineStart (indent : Nat) : List Char :=
  '\n' :: List.replicate indent ' '

@[simp] theorem toList_newline (indent : Nat) : (newline indent).toList = lineStart indent := by
  simp [newline, lineStart]

/-- The characters of a plain scalar from a column on. -/
def plainChars (room : Room) (column : Nat) : List (List Char) → List Char
  | [] => []
  | run :: rest =>
    if run == [' '] && width < column && room.split then
      lineStart room.indent ++ plainChars room room.indent rest
    else run ++ plainChars room (column + run.length) rest

theorem toList_plainRuns (room : Room) : ∀ (rs : List (List Char)) (written : String) (column : Nat),
    (plainRuns room written column rs).toList = written.toList ++ plainChars room column rs
  | [], _, _ => by simp [plainRuns, plainChars]
  | run :: rest, written, column => by
      rw [plainRuns, plainChars]
      split
      · rw [toList_plainRuns, String.toList_append, toList_newline, List.append_assoc]
      · rw [toList_plainRuns, String.toList_append, String.toList_ofList, List.append_assoc]

theorem toList_plain (room : Room) (column : Nat) (s : String) :
    (plain room column s).toList = plainChars room column (runs s.toList) := by
  rw [plain, toList_plainRuns]
  rfl

theorem plainChars_unsplit {room : Room} (hsplit : room.split = false) :
    ∀ {rs : List (List Char)} {column : Nat}, plainChars room column rs = rs.flatten
  | [], _ => rfl
  | run :: rest, column => by
      rw [plainChars, hsplit, Bool.and_false, if_neg Bool.false_ne_true, plainChars_unsplit hsplit,
        List.flatten_cons]

theorem plainChars_word {room : Room} {column : Nat} {w : List Char} {rest : List (List Char)}
    (hw : IsWord w) :
    plainChars room column (w :: rest) = w ++ plainChars room (column + w.length) rest := by
  have hne : (w == [' ']) = false := by
    rw [beq_eq_false_iff_ne]
    rintro rfl
    exact (hw.2 ' ' (by simp)).1 rfl
  rw [plainChars, hne]
  rfl

/-- Blanks are written as they are, or one blank as a line end. -/
theorem plainChars_blanks (room : Room) (column n : Nat) (rest : List (List Char)) :
    ∃ column', plainChars room column (List.replicate (n + 1) ' ' :: rest) =
        List.replicate (n + 1) ' ' ++ plainChars room column' rest ∨
      n = 0 ∧ plainChars room column (List.replicate (n + 1) ' ' :: rest) =
        lineStart room.indent ++ plainChars room column' rest := by
  rw [plainChars]
  split
  · rename_i h
    simp only [Bool.and_eq_true, beq_iff_eq] at h
    refine ⟨_, .inr ⟨?_, rfl⟩⟩
    have hlength := congrArg List.length h.1.1
    simpa using hlength
  · exact ⟨_, .inl rfl⟩

theorem phrase_head {rs : List (List Char)} (h : Phrase rs) (room : Room) (column : Nat) :
    ∃ x cs, plainChars room column rs = x :: cs ∧ isGap x = false ∧ x ≠ '#' ∧
      isSpecial x = false := by
  have hword : ∃ w rest, rs = w :: rest ∧ PlainWord w := by
    cases h with
    | last hw => exact ⟨_, _, rfl, hw⟩
    | cons hw _ => exact ⟨_, _, rfl, hw⟩
  obtain ⟨w, rest, rfl, hw⟩ := hword
  obtain ⟨x, w, rfl⟩ := List.exists_cons_of_ne_nil hw.word.1
  rw [plainChars_word hw.word, List.cons_append]
  refine ⟨x, _, rfl, hw.isGap x (by simp), ?_, hw.ordinary x (by simp)⟩
  rintro rfl
  exact hw.head_ne rfl

/-! ## Words and gaps -/

theorem plainWord_append : ∀ {w : List Char} {cs : List Char}, (∀ x ∈ w, isGap x = false) →
    w.getLast? ≠ some ':' → plainWord false cs = [] → plainWord false (w ++ cs) = w
  | [], _, _, _, hcs => hcs
  | [x], cs, hw, hlast, hcs => by
      have hx : x ≠ ':' := by simpa using hlast
      simp [plainWord, hw x (by simp), hx, hcs]
  | x :: y :: w, cs, hw, hlast, hcs => by
      have htail := plainWord_append (w := y :: w) (fun z hz => hw z (List.mem_cons_of_mem _ hz))
        (by rwa [List.getLast?_cons_cons] at hlast) hcs
      rw [List.cons_append, plainWord, htail]
      simp [hw x (by simp), hw y (by simp)]

theorem plainBreaks_blanks {cs : List Char} (hcs : ∀ x ∈ cs.head?, x ≠ ' ' ∧ isBreak x = false) :
    ∀ {k bound : Nat} {breaks : List Char} {c : Cursor},
      c.Holds (List.replicate k ' ' ++ cs) → k < bound →
        plainBreaks bound breaks c = (some breaks, c.skip k)
  | _, 0, _, _, _, hbound => absurd hbound (Nat.not_lt_zero _)
  | 0, bound + 1, breaks, c, h, _ => by
      have hpeek : c.peek ≠ ' ' ∧ isBreak c.peek = false := by
        cases cs with
        | nil => rw [Cursor.Holds.peek_nil h]; decide
        | cons x cs => rw [Cursor.Holds.peek h]; exact hcs x rfl
      simp [plainBreaks, hpeek, Cursor.skip]
  | k + 1, bound + 1, breaks, c, h, hbound => by
      rw [List.replicate_succ, List.cons_append] at h
      have hstep := @plainBreaks_blanks _ hcs _ _ breaks _ h.next (Nat.lt_of_succ_lt_succ hbound)
      simp [plainBreaks, h.peek, hstep, Cursor.skip]

theorem plainGap_blanks {c : Cursor} {x : Char} {cs : List Char} {n : Nat}
    (h : c.Holds (List.replicate (n + 1) ' ' ++ x :: cs)) (hx : x ≠ ' ') (hb : isBreak x = false) :
    plainGap c = (List.replicate (n + 1) ' ', false, c.skip (n + 1)) := by
  have htake := h.takeWhile (p := (· == ' ')) (by simp) (by simpa using hx)
  have hskip := h.skip
  rw [List.length_replicate] at htake hskip
  rw [plainGap, htake]
  simp [hskip.peek, hb]

/-- What a line may start with after its blanks: a key, an item, or nothing at all. -/
def StartsLine (cs : List Char) : Prop :=
  cs = [] ∨ (∃ x rest, cs = x :: rest ∧ IsLetter x) ∨ ∃ rest, cs = '-' :: ' ' :: rest

theorem StartsLine.head {cs : List Char} (h : StartsLine cs) :
    ∀ x ∈ cs.head?, x ≠ ' ' ∧ x ≠ '#' ∧ x ≠ '\ufeff' ∧ isBreak x = false := by
  rcases h with rfl | ⟨x, rest, rfl, hx⟩ | ⟨rest, rfl⟩
  · simp
  · have hne : ∀ d : Char, ¬IsLetter d → (x == d) = false := fun d hd =>
      beq_eq_false_iff_ne.2 (hx.ne hd)
    rintro y hy
    obtain rfl : x = y := by simpa using hy
    refine ⟨hx.ne (by decide), hx.ne (by decide), hx.ne (by decide), ?_⟩
    simp [isBreak, hne '\r' (by decide), hne '\n' (by decide), hne '\u0085' (by decide),
      hne '\u2028' (by decide), hne '\u2029' (by decide)]
  · simp [isBreak]

/-- No document marker stands at the start of a line. -/
theorem StartsLine.atMarker {cs : List Char} (h : StartsLine cs) {k : Nat} {c : Cursor}
    (hc : c.rest = List.replicate k ' ' ++ cs) : c.atMarker = false := by
  unfold Cursor.atMarker
  rw [hc]
  cases k with
  | succ k => rfl
  | zero =>
      rcases h with rfl | ⟨x, rest, rfl, hx⟩ | ⟨rest, rfl⟩
      · rfl
      · have hdash : x ≠ '-' := hx.ne (by decide)
        have hdot : x ≠ '.' := hx.ne (by decide)
        simp only [List.replicate_zero, List.nil_append]
        split <;> simp_all
      · rfl

theorem plainGap_line {c : Cursor} {cs : List Char} {k : Nat} (h : c.Holds (lineStart k ++ cs))
    (hcs : ∀ x ∈ cs.head?, x ≠ ' ' ∧ isBreak x = false)
    (hmark : c.next.atMarker = false) :
    plainGap c = ([' '], true, c.next.skip k) := by
  rw [lineStart, List.cons_append] at h
  have htake : c.takeWhile (· == ' ') = ([], c) := h.takeWhile_nil (by simp)
  have hbreaks : plainBreaks c.next.budget [] c.next = (some [], c.next.skip k) :=
    plainBreaks_blanks hcs h.next (by rw [h.next.budget]; simp)
  rw [plainGap, htake]
  simp [h.peek, h.lineBreak, hmark, hbreaks, isBreak, Cursor.normalBreak]

/-! ## Phrases -/

/-- Where a plain scalar stops: after its last word no further word belongs to it. -/
def Stops (least : Int) (cs : List Char) (ended : Bool) (Q : Cursor → Prop) : Prop :=
  plainWord false cs = [] ∧ ∀ c : Cursor, c.Holds cs → ∃ gap c', plainGap c = (gap, ended, c') ∧
    (gap.isEmpty || c'.peek == '#' || decide ((c'.column : Int) < least)) = true ∧ Q c'

theorem plainFrom_word {least : Int} {bound : Nat} {w cs read gap gap' : List Char}
    {was ended : Bool} {c c' : Cursor} (hw : PlainWord w) (hc : c.Holds (w ++ cs))
    (hcs : plainWord false cs = []) (hgap : plainGap (c.skip w.length) = (gap', ended, c')) :
    plainFrom false least (bound + 1) read gap was c =
      if (gap'.isEmpty || c'.peek == '#' || decide ((c'.column : Int) < least)) = true then
        (String.ofList (read.reverse ++ gap ++ w), ended, c')
      else plainFrom false least bound (w.reverse ++ (gap.reverse ++ read)) gap' ended c' := by
  have hword : (if c.peek == '#' then [] else plainWord false c.rest) = w := by
    rw [hc.1, plainWord_append hw.isGap hw.last_ne hcs]
    obtain ⟨x, w, rfl⟩ := List.exists_cons_of_ne_nil hw.word.1
    have hx : x ≠ '#' := by
      rintro rfl
      exact hw.head_ne rfl
    rw [List.cons_append] at hc
    simp [hc.peek, hx]
  have hne : w.isEmpty = false := by
    rw [List.isEmpty_eq_false_iff]
    exact hw.word.1
  rw [plainFrom]
  simp only [hword, hne, hgap]
  simp

theorem lineStart_column {c : Cursor} {cs : List Char} {k : Nat} (h : c.Holds (lineStart k ++ cs)) :
    (c.next.skip k).Holds cs ∧ (c.next.skip k).column = k := by
  rw [lineStart, List.cons_append] at h
  have hskip := h.next.skip
  have hflat := Cursor.skip_flat h.next (by simp [isFlat_space])
  rw [List.length_replicate] at hskip hflat
  rw [h.next_break (.inl rfl)] at hflat
  exact ⟨hskip, by omega⟩

/-- The gap between two words of a phrase, whether it was written as blanks or as a line end. -/
theorem plainGap_between {room : Room} {least : Int} {column n : Nat} {rest : List (List Char)}
    {tail : List Char} {c : Cursor} (hroom : least ≤ room.indent) (hpos : 0 < room.indent)
    (hrest : Phrase rest) (hcol : least ≤ c.column)
    (hc : c.Holds (plainChars room column (List.replicate (n + 1) ' ' :: rest) ++ tail)) :
    ∃ column' ended c', plainGap c = (List.replicate (n + 1) ' ', ended, c') ∧
      c'.Holds (plainChars room column' rest ++ tail) ∧ least ≤ c'.column ∧ c'.peek ≠ '#' ∧
      c'.rest.length < c.rest.length ∧ plainWord false c.rest = [] := by
  obtain ⟨column', hgap⟩ := plainChars_blanks room column n rest
  obtain ⟨x, cs, hx, hxgap, hxsharp, hxord⟩ := phrase_head hrest room column'
  have hxblank : x ≠ ' ' := by
    rintro rfl
    cases hxgap
  have hxbreak : isBreak x = false := by
    simp only [isGap, isSpaceOrEnd, isLineEnd, Bool.or_eq_false_iff] at hxgap
    exact hxgap.2.2.2
  rcases hgap with hgap | ⟨rfl, hgap⟩
  · rw [hgap, List.append_assoc, hx, List.cons_append] at hc
    have hskip := hc.skip
    have hflat := Cursor.skip_flat hc (by simp [isFlat_space])
    rw [List.length_replicate] at hskip hflat
    refine ⟨column', false, _, plainGap_blanks hc hxblank hxbreak, ?_, ?_, ?_, ?_, ?_⟩
    · rwa [hx, List.cons_append]
    · omega
    · rwa [hskip.peek]
    · rw [hskip.1, hc.1]
      simp
    · rw [hc.1, List.replicate_succ, List.cons_append, plainWord]
      simp [isGap, isSpaceOrEnd]
  · rw [hgap, List.append_assoc, hx, List.cons_append] at hc
    obtain ⟨hskip, hskipcol⟩ := lineStart_column hc
    have hmark : c.next.atMarker = false := by
      obtain ⟨k, hk⟩ := Nat.exists_eq_succ_of_ne_zero (Nat.ne_of_gt hpos)
      rw [lineStart, hk, List.cons_append] at hc
      unfold Cursor.atMarker
      rw [hc.next.1]
      rfl
    have hline := plainGap_line hc (by simpa using ⟨hxblank, hxbreak⟩) hmark
    refine ⟨column', true, _, hline, ?_, ?_, ?_, ?_, ?_⟩
    · rwa [hx, List.cons_append]
    · omega
    · rwa [hskip.peek]
    · rw [hskip.1, hc.1]
      simp [lineStart]
    · rw [hc.1, lineStart, List.cons_append, plainWord]
      simp [isGap, isSpaceOrEnd, isLineEnd, isBreak]

/-- **A phrase reads back.** The bound is more than the characters ahead, and every line of the
phrase lies to the right of the enclosing block. -/
theorem plainFrom_phrase {room : Room} {least : Int} {tail : List Char} {ended : Bool}
    {Q : Cursor → Prop} (hroom : least ≤ room.indent) (hpos : 0 < room.indent)
    (htail : Stops least tail ended Q) {rs : List (List Char)} (hrs : Phrase rs) :
    ∀ {column bound : Nat} {read gap : List Char} {was : Bool} {c : Cursor},
      c.Holds (plainChars room column rs ++ tail) → least ≤ c.column →
      (plainChars room column rs ++ tail).length < bound →
        ∃ c', plainFrom false least bound read gap was c =
          (String.ofList (read.reverse ++ gap ++ rs.flatten), ended, c') ∧ Q c' := by
  induction hrs with
  | last hw =>
      intro column bound read gap was c hc _ hbound
      rw [plainChars_word hw.word, plainChars, List.append_nil] at hc hbound
      obtain ⟨gap', c', hgap, hstop, hQ⟩ := htail.2 _ hc.skip
      obtain ⟨bound, rfl⟩ := Nat.exists_eq_succ_of_ne_zero (Nat.ne_of_gt (Nat.zero_lt_of_lt hbound))
      refine ⟨c', ?_, hQ⟩
      rw [Nat.succ_eq_add_one, plainFrom_word hw hc htail.1 hgap, if_pos hstop]
      simp
  | @cons w n rest hw hrest ih =>
      intro column bound read gap was c hc hcol hbound
      rw [plainChars_word hw.word] at hc hbound
      obtain ⟨bound, rfl⟩ := Nat.exists_eq_succ_of_ne_zero (Nat.ne_of_gt (Nat.zero_lt_of_lt hbound))
      rw [List.append_assoc] at hc
      have hskip := hc.skip
      have hflat := Cursor.skip_flat hc hw.isFlat
      obtain ⟨column', ended', c', hgap, hc', hcol', hpeek, hless, hcs⟩ :=
        plainGap_between hroom hpos hrest (by omega) hskip
      rw [hskip.1] at hcs
      have hshort : (plainChars room column' rest ++ tail).length < bound := by
        rw [hskip.1, hc'.1] at hless
        simp only [List.length_append] at hless hbound ⊢
        omega
      obtain ⟨c'', hread, hQ⟩ := @ih column' bound (w.reverse ++ (gap.reverse ++ read))
        (List.replicate (n + 1) ' ') ended' c' hc' hcol' hshort
      refine ⟨c'', ?_, hQ⟩
      have hgo : ((List.replicate (n + 1) ' ').isEmpty || c'.peek == '#' ||
          decide ((c'.column : Int) < least)) = false := by
        simp [hpeek, hcol']
      rw [Nat.succ_eq_add_one, plainFrom_word hw hc hcs hgap, hgo, if_neg Bool.false_ne_true, hread]
      simp

/-! ## Scalars -/

theorem stops_line {least : Int} {k : Nat} {cs : List Char} (hcs : StartsLine cs)
    (hk : (k : Int) < least) :
    Stops least (lineStart k ++ cs) true fun c => c.Holds cs ∧ c.column = k := by
  constructor
  · rw [lineStart, List.cons_append, plainWord]
    simp [isGap, isSpaceOrEnd, isLineEnd, isBreak]
  · intro c hc
    obtain ⟨hskip, hcol⟩ := lineStart_column hc
    have hmark : c.next.atMarker = false := by
      rw [lineStart, List.cons_append] at hc
      exact hcs.atMarker hc.next.1
    have hhead : ∀ x ∈ cs.head?, x ≠ ' ' ∧ isBreak x = false := fun x hx =>
      ⟨(hcs.head x hx).1, (hcs.head x hx).2.2.2⟩
    refine ⟨_, _, plainGap_line hc hhead hmark, ?_, hskip, hcol⟩
    rw [hcol]
    simp [hk]

/-- **A plain scalar reads back.** It ends with its line, and the next line starts at a column of
the enclosing block or of one around it. -/
theorem plainScalar_phrase {room : Room} {outer k column : Nat} {cs : List Char} {c : Cursor}
    {rs : List (List Char)} (hrs : Phrase rs) (hroom : outer < room.indent) (hcol : outer < c.column)
    (hk : k ≤ outer) (hcs : StartsLine cs)
    (hc : c.Holds (plainChars room column rs ++ (lineStart k ++ cs))) :
    ∃ c', plainScalar false outer c = (String.ofList rs.flatten, true, c') ∧ c'.Holds cs ∧
      c'.column = k := by
  have hstops : Stops ((outer : Int) + 1) (lineStart k ++ cs) true _ := stops_line hcs (by omega)
  have hbound : (plainChars room column rs ++ (lineStart k ++ cs)).length < c.budget := by
    rw [hc.budget]
    omega
  obtain ⟨c', hread, hQ⟩ := @plainFrom_phrase _ _ _ _ _ (by omega) (by omega) hstops rs hrs column
    c.budget [] [] false c hc (by omega) hbound
  exact ⟨c', hread, hQ⟩

/-- **A key reads back** as the word before its colon. -/
theorem plainScalar_key {outer : Int} {w cs : List Char} {c : Cursor} (hw : PlainWord w)
    (hcs : isGap (cs.headD endMark) = true) (hc : c.Holds (w ++ ':' :: cs)) :
    plainScalar false outer c = (String.ofList w, false, c.skip w.length) := by
  have hskip := hc.skip
  have hcolon : plainWord false (':' :: cs) = [] := by
    rw [plainWord, hcs]
    rfl
  have hgap : plainGap (c.skip w.length) = ([], false, c.skip w.length) := by
    have htake : (c.skip w.length).takeWhile (· == ' ') = ([], c.skip w.length) :=
      hskip.takeWhile_nil (by simp)
    rw [plainGap, htake]
    simp [hskip.peek, isBreak]
  rw [plainScalar, hc.budget, plainFrom_word hw hc hcolon hgap]
  simp

end Limn.Yaml
