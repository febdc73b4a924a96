import Limn.Proofs.Yaml.Numeral
import Limn.Proofs.Yaml.Plain

/-! # Quoted scalars read back

Characters between quotes *read as* symbols when the reader, wherever it stands, takes the former
and keeps the latter. This composes, so each style is followed piece by piece: words, gaps, escapes
and broken lines.

Two things are lost. Between apostrophes a next-line character reads as a line feed, or as a blank
where it stands alone. Between double quotes, where a line is broken after an escape and already its
indentation passes the width, a blank that follows is broken off once more: the backslash that was
to keep it then reads as one, with a blank of its own.
-/

namespace Limn.Yaml

open Writer
open Limn.Text (Symbol)

/-! ## Reading piece by piece -/

/-- Before the characters `after`, the characters `cs` between quotes read as `out`. -/
def ReadsAs (double : Bool) (after cs : List Char) (out : List Symbol) : Prop :=
  ∀ (bound : Nat) (read : List Symbol) (c : Cursor), c.Holds (cs ++ after) →
    (cs ++ after).length < bound →
      ∃ bound' c', quotedFrom double bound read c = quotedFrom double bound' (out.reverse ++ read) c' ∧
        c'.Holds after ∧ after.length < bound'

theorem ReadsAs.nil {double : Bool} {after : List Char} : ReadsAs double after [] [] :=
  fun bound _ c hc hbound => ⟨bound, c, rfl, hc, hbound⟩

theorem ReadsAs.append {double : Bool} {after cs ds : List Char} {out out' : List Symbol}
    (h : ReadsAs double (ds ++ after) cs out) (h' : ReadsAs double after ds out') :
    ReadsAs double after (cs ++ ds) (out ++ out') := by
  intro bound read c hc hbound
  rw [List.append_assoc] at hc hbound
  obtain ⟨bound₁, c₁, heq, hc₁, hbound₁⟩ := h bound read c hc hbound
  obtain ⟨bound₂, c₂, heq', hc₂, hbound₂⟩ := h' bound₁ _ c₁ hc₁ hbound₁
  refine ⟨bound₂, c₂, ?_, hc₂, hbound₂⟩
  rw [heq, heq', List.reverse_append, List.append_assoc]

/-- One round of the reader takes the characters. -/
theorem ReadsAs.of_step {double : Bool} {after cs : List Char} {out : List Symbol} (hcs : cs ≠ [])
    (h : ∀ (bound : Nat) (read : List Symbol) (c : Cursor), c.Holds (cs ++ after) →
      ∃ c', quotedFrom double (bound + 1) read c = quotedFrom double bound (out.reverse ++ read) c' ∧
        c'.Holds after) : ReadsAs double after cs out := by
  intro bound read c hc hbound
  cases bound with
  | zero => exact absurd hbound (Nat.not_lt_zero _)
  | succ bound =>
      obtain ⟨c', heq, hc'⟩ := h bound read c hc
      refine ⟨bound, c', heq, hc', ?_⟩
      have := List.length_pos_iff.2 hcs
      rw [List.length_append] at hbound
      omega

/-- A character that neither starts a gap nor means anything between the quotes. -/
theorem readsAs_char {double : Bool} {after : List Char} {x : Char} (hgap : isGap x = false)
    (hquote : x ≠ (if double then '\x22' else '\x27')) (hslash : double = true → x ≠ '\\') :
    ReadsAs double after [x] [.char x] := by
  refine .of_step (by simp) fun bound read c hc => ?_
  refine ⟨c.next, ?_, Cursor.Holds.next hc⟩
  rw [quotedFrom, Cursor.Holds.peek hc]
  cases double <;> simp_all

/-- What may follow a gap: something that is no gap itself. -/
def StartsWord (cs : List Char) : Prop :=
  ∃ x rest, cs = x :: rest ∧ x ≠ ' ' ∧ x ≠ '\t' ∧ x ≠ endMark ∧ isBreak x = false

theorem readsAs_blanks {double : Bool} {after : List Char} {n : Nat} (hafter : StartsWord after) :
    ReadsAs double after (List.replicate (n + 1) ' ') (List.replicate (n + 1) blank) := by
  obtain ⟨x, rest, rfl, hblank, htab, hend, hbreak⟩ := hafter
  refine .of_step (by simp) fun bound read c hc => ?_
  have htake := hc.takeWhile (p := fun ch => ch == ' ' || ch == '\t') (by simp)
    (by simp [hblank, htab])
  have hskip := hc.skip
  have hpeek : c.peek = ' ' := by
    rw [List.replicate_succ, List.cons_append] at hc
    exact hc.peek
  have hgap : quotedGap c = .ok (List.replicate (n + 1) ' ', c.skip (n + 1)) := by
    rw [List.length_replicate] at htake hskip
    rw [quotedGap, htake]
    simp [hskip.peek, hend, hbreak]
  rw [List.length_replicate] at hskip
  refine ⟨_, ?_, hskip⟩
  rw [quotedFrom, hpeek, hgap]
  simp only [blank, ← List.map_replicate]
  cases double <;> rfl

/-! ## Breaks -/

theorem quotedBreaks_holds {after : List Char} {k : Nat} (hk : 0 < k) (hafter : StartsWord after) :
    ∀ {bs : List Char} {bound : Nat} (breaks : List Char) {c : Cursor},
      (∀ b ∈ bs, isWrittenBreak b = true) → c.Holds (bs ++ (List.replicate k ' ' ++ after)) →
        bs.length < bound →
          ∃ c', quotedBreaks bound breaks c = .ok (breaks ++ bs.map Cursor.normalBreak, c') ∧
            c'.Holds after
  | _, 0, _, _, _, _, hbound => absurd hbound (Nat.not_lt_zero _)
  | [], bound + 1, breaks, c, _, hc, _ => by
      obtain ⟨x, rest, rfl, hblank, htab, hend, hbreak⟩ := hafter
      rw [List.nil_append] at hc
      have htake := hc.takeWhile (p := fun ch => ch == ' ' || ch == '\t') (by simp)
        (by simp [hblank, htab])
      have hskip := hc.skip
      rw [List.length_replicate] at htake hskip
      have hmark : c.atMarker = false := by
        obtain ⟨k, rfl⟩ := Nat.exists_eq_succ_of_ne_zero (Nat.ne_of_gt hk)
        unfold Cursor.atMarker
        rw [hc.1]
        rfl
      refine ⟨_, ?_, hskip⟩
      rw [quotedBreaks, hmark, Cursor.skipWhile, htake]
      simp [hskip.peek, hbreak]
  | b :: bs, bound + 1, breaks, c, hbs, hc, hbound => by
      have hb := isWrittenBreak_cases (hbs b List.mem_cons_self)
      rw [List.cons_append] at hc
      obtain ⟨c', heq, hc'⟩ := quotedBreaks_holds hk hafter (breaks ++ [Cursor.normalBreak b])
        (fun x hx => hbs x (List.mem_cons_of_mem _ hx)) hc.next (Nat.lt_of_succ_lt_succ hbound)
      have hmark : c.atMarker = false := by
        unfold Cursor.atMarker
        rw [hc.1]
        rcases hb with rfl | rfl | rfl | rfl <;> rfl
      have htake : c.takeWhile (fun ch => ch == ' ' || ch == '\t') = ([], c) :=
        hc.takeWhile_nil (by rcases hb with rfl | rfl | rfl | rfl <;> simp)
      have hbreak : isBreak b = true := by
        rcases hb with rfl | rfl | rfl | rfl <;> rfl
      refine ⟨c', ?_, hc'⟩
      rw [quotedBreaks, hmark, Cursor.skipWhile, htake]
      simp only [hc.peek, hbreak, hc.lineBreak hb, if_true, heq]
      simp

/-- What a row of breaks between two words reads as. -/
def foldedBreaks : List Char → List Char
  | [] => []
  | b :: bs =>
    (if Cursor.normalBreak b != '\n' then [b] else if bs.isEmpty then [' '] else []) ++
      bs.map Cursor.normalBreak

theorem readsAs_breaks {double : Bool} {after bs : List Char} {k : Nat} (hk : 0 < k)
    (hafter : StartsWord after) (hne : bs ≠ []) (hbs : ∀ b ∈ bs, isWrittenBreak b = true) :
    ReadsAs double after (bs ++ List.replicate k ' ') ((foldedBreaks bs).map .char) := by
  obtain ⟨b, bs, rfl⟩ := List.exists_cons_of_ne_nil hne
  have hb := isWrittenBreak_cases (hbs b List.mem_cons_self)
  refine .of_step (by simp) fun bound read c hc => ?_
  rw [List.append_assoc, List.cons_append] at hc
  obtain ⟨c', heq, hc'⟩ := @quotedBreaks_holds after k hk hafter bs c.next.budget [] c.next
    (fun x hx => hbs x (List.mem_cons_of_mem _ hx)) hc.next (by
      rw [hc.next.budget, List.length_append]
      omega)
  have htake : c.takeWhile (fun ch => ch == ' ' || ch == '\t') = ([], c) :=
    hc.takeWhile_nil (by rcases hb with rfl | rfl | rfl | rfl <;> simp)
  have hbreak : isBreak b = true := by
    rcases hb with rfl | rfl | rfl | rfl <;> rfl
  have hgap : quotedGap c = .ok (foldedBreaks (b :: bs), c') := by
    have hend : b ≠ endMark := by
      rcases hb with rfl | rfl | rfl | rfl <;> decide
    rw [quotedGap, htake]
    simp only [hc.peek, hbreak, hc.lineBreak hb, if_true, heq, beq_eq_false_iff_ne.2 hend]
    rcases hb with rfl | rfl | rfl | rfl <;>
      simp [foldedBreaks, Cursor.normalBreak, bind, Except.bind]
  refine ⟨c', ?_, hc'⟩
  rw [quotedFrom, hc.peek, hgap]
  rcases hb with rfl | rfl | rfl | rfl <;> cases double <;> rfl

theorem readsAs_lineStart {double : Bool} {after : List Char} {k : Nat} (hk : 0 < k)
    (hafter : StartsWord after) : ReadsAs double after (lineStart k) [blank] :=
  @readsAs_breaks double after ['\n'] k hk hafter (by simp) (by simp [isWrittenBreak])

/-! ## Between apostrophes -/

/-- The characters between apostrophes from a column on. -/
def singleChars (room : Room) (first : Bool) (column : Nat) : List (List Char) → List Char
  | [] => []
  | run :: rest =>
    if (run.head?.map isWrittenBreak).getD false then
      (breakRun run).toList ++ List.replicate room.indent ' ' ++
        singleChars room false room.indent rest
    else if run == [' '] && width < column && room.split && !first && !rest.isEmpty then
      lineStart room.indent ++ singleChars room false room.indent rest
    else doubled run ++ singleChars room false (column + (doubled run).length) rest

theorem toList_singleRuns (room : Room) :
    ∀ (rs : List (List Char)) (written : String) (first : Bool) (column : Nat),
      (singleRuns room written first column rs).toList =
        written.toList ++ singleChars room first column rs
  | [], _, _, _ => by simp [singleRuns, singleChars]
  | run :: rest, written, first, column => by
      rw [singleRuns, singleChars]
      split
      · rw [toList_singleRuns]
        simp
      · split
        · rw [toList_singleRuns]
          simp
        · rw [toList_singleRuns]
          simp

theorem toList_single (room : Room) (column : Nat) (s : String) :
    (single room column s).toList =
      '\x27' :: (singleChars room true (column + 1) (runs s.toList) ++ ['\x27']) := by
  simp [single, toList_singleRuns]

/-- What a run reads back as: breaks are folded, and the first line feed of them was doubled. -/
def rereadRun (run : List Char) : List Char :=
  if (run.head?.map isWrittenBreak).getD false then foldedBreaks (breakRun run).toList else run

theorem readsAs_doubled {after w : List Char} (hw : ∀ x ∈ w, isGap x = false) :
    ReadsAs false after (doubled w) (w.map .char) := by
  induction w generalizing after with
  | nil => exact .nil
  | cons x w ih =>
      have hrest : ReadsAs false after (doubled w) (w.map .char) :=
        ih fun y hy => hw y (List.mem_cons_of_mem _ hy)
      rw [doubled, List.flatMap_cons, ← doubled]
      show ReadsAs false after _ ([.char x] ++ w.map .char)
      refine .append ?_ hrest
      split
      · rename_i hx
        rw [beq_iff_eq] at hx
        subst hx
        refine .of_step (by simp) fun bound read c hc => ?_
        refine ⟨c.skip 2, ?_, Cursor.Holds.skip hc⟩
        have hone := Cursor.Holds.peekAt_one hc
        rw [quotedFrom, Cursor.Holds.peek hc, hone]
        rfl
      · rename_i hx
        exact readsAs_char (hw x List.mem_cons_self) (by simpa using hx) (by simp)

theorem startsWord_of_word {w cs : List Char} (hw : IsWord w)
    (hord : ∀ x ∈ w, isSpecial x = false) : StartsWord (w ++ cs) := by
  obtain ⟨x, w, rfl⟩ := List.exists_cons_of_ne_nil hw.1
  obtain ⟨hblank, hbreak⟩ := hw.2 x List.mem_cons_self
  have hx := hord x List.mem_cons_self
  refine ⟨x, _, rfl, hblank, ?_, ?_, ?_⟩
  · exact beq_eq_false_iff_ne.1 (beq_of_ordinary hx (by decide))
  · exact beq_eq_false_iff_ne.1 (beq_of_ordinary hx (by decide))
  · rwa [isBreak_of_ordinary hx]

theorem doubled_head {x : Char} {w : List Char} :
    ∃ rest, doubled (x :: w) = x :: rest := by
  rw [doubled, List.flatMap_cons]
  split <;> exact ⟨_, rfl⟩

theorem singleChars_word {room : Room} {first : Bool} {column : Nat} {w : List Char}
    {rest : List (List Char)} (hw : IsWord w) :
    singleChars room first column (w :: rest) =
      doubled w ++ singleChars room false (column + (doubled w).length) rest := by
  obtain ⟨x, w, rfl⟩ := List.exists_cons_of_ne_nil hw.1
  obtain ⟨hblank, hbreak⟩ := hw.2 x List.mem_cons_self
  rw [singleChars]
  simp [hbreak, hblank]

theorem doubled_blanks (n : Nat) : doubled (List.replicate n ' ') = List.replicate n ' ' := by
  induction n with
  | zero => rfl
  | succ n ih =>
      rw [List.replicate_succ, doubled, List.flatMap_cons, ← doubled, ih]
      rfl

/-- After a gap comes a word, or the closing apostrophe. -/
theorem startsWord_singleChars {room : Room} {column : Nat} {rest : List (List Char)}
    {tail : List Char} (hhead : ∀ w ∈ rest.head?, IsWord w)
    (hord : ∀ x ∈ rest.flatten, isSpecial x = false) :
    StartsWord (singleChars room false column rest ++ '\x27' :: tail) := by
  cases rest with
  | nil => exact ⟨'\x27', tail, rfl, by decide, by decide, by decide, by decide⟩
  | cons w rest =>
      have hw := hhead w rfl
      rw [singleChars_word hw]
      obtain ⟨x, w, rfl⟩ := List.exists_cons_of_ne_nil hw.1
      obtain ⟨ds, hds⟩ := @doubled_head x w
      obtain ⟨y, cs, heq, hy⟩ := @startsWord_of_word (x :: w) [] hw fun y hy =>
        hord y (by simp only [List.flatten_cons]; exact List.mem_append_left _ hy)
      rw [List.append_nil, List.cons.injEq] at heq
      obtain ⟨rfl, rfl⟩ := heq
      rw [hds]
      exact ⟨x, _, rfl, hy⟩

/-- **Between apostrophes, runs read back one by one.** -/
theorem readsAs_single {room : Room} (hroom : 0 < room.indent) {tail : List Char} :
    ∀ {rs : List (List Char)} {first : Bool} {column : Nat}, Spaced rs →
      (∀ x ∈ rs.flatten, isSpecial x = false) →
        ReadsAs false ('\x27' :: tail) (singleChars room first column rs)
          ((rs.flatMap rereadRun).map .char)
  | [], _, _, _, _ => .nil
  | run :: rest, first, column, hspaced, hord => by
      have hrun : ∀ x ∈ run, isSpecial x = false := fun x hx =>
        hord x (List.mem_append_left _ hx)
      have hrest : ∀ x ∈ rest.flatten, isSpecial x = false := fun x hx =>
        hord x (List.mem_append_right _ hx)
      rw [List.flatMap_cons, List.map_append]
      cases hspaced with
      | word hw _ htail =>
          have hplain : rereadRun run = run := by
            obtain ⟨x, w, rfl⟩ := List.exists_cons_of_ne_nil hw.1
            simp [rereadRun, (hw.2 x List.mem_cons_self).2]
          rw [singleChars_word hw, hplain]
          refine .append (readsAs_doubled fun x hx => ?_) (readsAs_single hroom htail hrest)
          rw [isGap_of_ordinary (hrun x hx), (hw.2 x hx).2, beq_eq_false_iff_ne.2 (hw.2 x hx).1]
          rfl
      | gap hg hnext htail =>
          have hafter := fun column =>
            @startsWord_singleChars room column rest tail hnext hrest
          have htails := fun column => @readsAs_single room hroom tail rest false column htail hrest
          obtain ⟨hne, hblank | hbreak⟩ := hg
          · obtain ⟨n, rfl⟩ := eq_blanks hne hblank
            have hplain : rereadRun (List.replicate (n + 1) ' ') = List.replicate (n + 1) ' ' := rfl
            rw [singleChars, hplain, if_neg (by simp [List.replicate_succ, isWrittenBreak])]
            split
            · rename_i hfold
              simp only [Bool.and_eq_true, beq_iff_eq] at hfold
              rw [hfold.1.1.1.1]
              exact .append (readsAs_lineStart hroom (hafter _)) (htails _)
            · rw [doubled_blanks, List.map_replicate]
              exact .append (readsAs_blanks (hafter _)) (htails _)
          · obtain ⟨b, run, rfl⟩ := List.exists_cons_of_ne_nil hne
            have hb : ((some b).map isWrittenBreak).getD false = true :=
              hbreak b List.mem_cons_self
            rw [singleChars, rereadRun, List.head?_cons, hb, if_pos rfl, if_pos rfl]
            refine .append (readsAs_breaks hroom (hafter _) ?_ ?_) (htails _)
            · simp [breakRun]
            · intro x hx
              rw [breakRun, String.toList_append, String.toList_ofList] at hx
              rcases List.mem_append.1 hx with hx | hx
              · split at hx
                · rw [List.mem_singleton.1 hx]
                  rfl
                · cases hx
              · exact hbreak x hx

/-- What a quotable text reads back as. -/
def rereadQuotable (cs : List Char) : List Char :=
  (runs cs).flatMap rereadRun

/-- **A text between apostrophes reads back** as its runs do. -/
theorem quotedScalar_single {room : Room} {column : Nat} {s : String} {tail : List Char} {c : Cursor}
    (hroom : 0 < room.indent) (hs : isQuotable s = true) (htail : tail.head? ≠ some '\x27')
    (hc : c.Holds ((single room column s).toList ++ tail)) :
    ∃ c', quotedScalar false c = .ok (.text (String.ofList (rereadQuotable s.toList)), c') ∧
      c'.Holds tail := by
  obtain ⟨hord, hbb, hbr⟩ := isQuotable_iff.1 hs
  rw [toList_single, List.cons_append, List.append_assoc, List.singleton_append] at hc
  have hreads := @readsAs_single room hroom tail (runs s.toList) true (column + 1)
    (spaced_runs hbb hbr) (by rwa [flatten_runs])
  obtain ⟨bound, c', heq, hc', hbound⟩ := hreads c.budget [] c.next hc.next (by
    rw [hc.budget, List.length_cons]
    omega)
  obtain ⟨bound, rfl⟩ := Nat.exists_eq_succ_of_ne_zero (Nat.ne_of_gt (Nat.zero_lt_of_lt hbound))
  refine ⟨c'.next, ?_, hc'.next⟩
  have hone : (c'.peekAt 1 == '\x27') = false := by
    rw [hc'.peekAt_one]
    cases tail with
    | nil => rfl
    | cons x tail => simpa using htail
  rw [quotedScalar, heq, quotedFrom, hc'.peek, hone]
  simp [rereadQuotable]

/-- The character that no text between apostrophes keeps. -/
def nextLine : Char := '\u0085'

theorem normalBreak_of_ne {b : Char} (h : b ≠ nextLine) : Cursor.normalBreak b = b :=
  if_neg (by simpa [nextLine] using h)

theorem normalBreak_ne_nextLine (b : Char) : Cursor.normalBreak b ≠ nextLine := by
  by_cases hb : b = nextLine
  · subst hb
    decide
  · rwa [normalBreak_of_ne hb]

theorem nextLine_not_mem_foldedBreaks (bs : List Char) : nextLine ∉ foldedBreaks bs := by
  cases bs with
  | nil => simp [foldedBreaks]
  | cons b bs =>
      intro hmem
      rw [foldedBreaks] at hmem
      rcases List.mem_append.1 hmem with hmem | hmem
      · split at hmem
        · rename_i hb
          rw [← List.mem_singleton.1 hmem] at hb
          exact absurd hb (by decide)
        · split at hmem <;> simp [nextLine] at hmem
      · obtain ⟨b, -, hb⟩ := List.mem_map.1 hmem
        exact normalBreak_ne_nextLine b hb

theorem nextLine_not_mem_rereadRun {run : List Char} (h : IsWord run ∨ IsGapRun run) :
    nextLine ∉ rereadRun run := by
  unfold rereadRun
  split
  · exact nextLine_not_mem_foldedBreaks _
  · rename_i hhead
    intro hmem
    rcases h with hw | ⟨hne, hblank | hbreak⟩
    · exact absurd (hw.2 _ hmem).2 (by decide)
    · exact absurd (hblank _ hmem) (by decide)
    · obtain ⟨b, run, rfl⟩ := List.exists_cons_of_ne_nil hne
      exact hhead (hbreak b List.mem_cons_self)

theorem map_normalBreak {bs : List Char} (h : nextLine ∉ bs) : bs.map Cursor.normalBreak = bs := by
  refine (List.map_congr_left fun b hb => ?_).trans (List.map_id bs)
  refine normalBreak_of_ne ?_
  rintro rfl
  exact h hb

theorem rereadRun_eq_self {run : List Char} (h : nextLine ∉ run) : rereadRun run = run := by
  unfold rereadRun
  split
  · rename_i hhead
    cases run with
    | nil => rfl
    | cons b run =>
        rw [breakRun, List.head?_cons]
        by_cases hb : b = '\n'
        · subst hb
          simp [foldedBreaks, map_normalBreak h, Cursor.normalBreak]
        · rw [List.mem_cons, not_or] at h
          simp [foldedBreaks, map_normalBreak h.2, normalBreak_of_ne (Ne.symm h.1), hb]
  · rfl

/-- **What apostrophes keep.** A quotable text reads back as itself exactly if it holds no next-line
character. -/
theorem rereadQuotable_eq_self_iff {s : String} (hs : isQuotable s = true) :
    rereadQuotable s.toList = s.toList ↔ nextLine ∉ s.toList := by
  obtain ⟨-, hbb, hbr⟩ := isQuotable_iff.1 hs
  constructor
  · intro heq
    rw [← heq, rereadQuotable, List.mem_flatMap]
    rintro ⟨run, hrun, hmem⟩
    exact nextLine_not_mem_rereadRun ((spaced_runs hbb hbr).mem run hrun) hmem
  · intro hmem
    have hruns : (runs s.toList).map rereadRun = runs s.toList := by
      refine (List.map_congr_left fun run hrun => ?_).trans (List.map_id _)
      refine rereadRun_eq_self fun hin => hmem ?_
      rw [← flatten_runs s.toList]
      exact List.mem_flatten_of_mem hrun hin
    rw [rereadQuotable, List.flatMap_def, hruns, flatten_runs]

/-! ## Escapes -/

theorem escapes_letters :
    ∀ p ∈ escapeLetters, escapes.lookup p.2 = some p.1 := by
  decide

theorem mem_of_lookup {α β : Type} [BEq α] [LawfulBEq α] {l : List (α × β)} {a : α} {b : β}
    (h : l.lookup a = some b) : (a, b) ∈ l := by
  obtain ⟨l₁, l₂, rfl, -⟩ := List.lookup_eq_some_iff.1 h
  simp

theorem eq_char_of_char? {s : Symbol} {x : Char} (h : s.char? = some x) : s = .char x := by
  cases s with
  | char y => rw [Option.some.inj h]
  | half k => cases h

theorem escapeNumber_upperHex {w n : Nat} {after : List Char} {c : Cursor} (hw : 0 < w)
    (hn : n < 16 ^ w) (hc : c.Holds ((upperHex w n).toList ++ after)) :
    escapeNumber w c = .ok (n, c.skip w) ∧ (c.skip w).Holds after := by
  obtain ⟨ds, heq, hlength, hds, hvalue⟩ := toList_upperHex hw hn
  have hskip := hc.skip
  rw [heq] at hc hskip
  rw [List.length_map, hlength] at hskip
  have htake : c.rest.take w = ds.map fun d => (Nat.digitChar d).toUpper := by
    rw [hc.1, List.take_left' (by rw [List.length_map, hlength])]
  refine ⟨?_, hskip⟩
  rw [escapeNumber, htake, Text.mapM_map_some fun d hd => hexValue?_upper (hds d hd)]
  simp [hlength, hvalue]

theorem number_lt (s : Symbol) : s.number < 0x110000 := by
  cases s with
  | char x =>
      have hvalid : x.toNat < 0xd800 ∨ 0xdfff < x.toNat ∧ x.toNat < 0x110000 := x.valid
      show x.toNat < _
      omega
  | half h =>
      have hrange := h.isHalf
      simp only [Text.isHighHalf, Text.isLowHalf, Bool.or_eq_true, Bool.and_eq_true,
        decide_eq_true_eq] at hrange
      show h.unit < _
      omega

/-- No character has the number of half a surrogate pair. -/
theorem ofNat_number (s : Symbol) : Symbol.ofNat s.number = s := by
  cases s with
  | char x =>
      have hvalid : x.toNat < 0xd800 ∨ 0xdfff < x.toNat ∧ x.toNat < 0x110000 := x.valid
      have hwhole : ¬(Text.isHighHalf x.toNat || Text.isLowHalf x.toNat) = true := by
        simp only [Text.isHighHalf, Text.isLowHalf, Bool.or_eq_true, Bool.and_eq_true,
          decide_eq_true_eq]
        omega
      rw [Symbol.number, Symbol.ofNat, dif_neg hwhole, Char.ofNat_toNat]
  | half h => rw [Symbol.number, Symbol.ofNat, dif_pos h.isHalf]

theorem symbolWithNumber_number (s : Symbol) : symbolWithNumber s.number = .ok s := by
  rw [symbolWithNumber, if_pos (number_lt s), ofNat_number]

theorem readsAs_of_escapeAt {after cs : List Char} {out : List Symbol}
    (h : ∀ c : Cursor, c.Holds (cs ++ after) →
      ∃ c', escapeAt c = .ok (out, c') ∧ c'.Holds after) :
    ReadsAs true after ('\\' :: cs) out := by
  refine .of_step (by simp) fun bound read c hc => ?_
  rw [List.cons_append] at hc
  obtain ⟨c', heq, hc'⟩ := h c.next hc.next
  refine ⟨c', ?_, hc'⟩
  rw [quotedFrom, hc.peek, heq]
  rfl

theorem readsAs_letter {letter x : Char} {after : List Char}
    (h : escapes.lookup letter = some x) : ReadsAs true after ['\\', letter] [.char x] := by
  refine readsAs_of_escapeAt fun c hc => ⟨c.next, ?_, Cursor.Holds.next hc⟩
  rw [escapeAt, Cursor.Holds.peek hc, h]

theorem readsAs_hex {letter : Char} {s : Symbol} {w : Nat} {after : List Char} (hw : 0 < w)
    (hnone : escapes.lookup letter = none) (hwidth : escapeWidth? letter = some w)
    (hs : s.number < 16 ^ w) :
    ReadsAs true after ('\\' :: letter :: (upperHex w s.number).toList) [s] := by
  refine readsAs_of_escapeAt fun c hc => ?_
  rw [List.cons_append] at hc
  obtain ⟨hnumber, hskip⟩ := escapeNumber_upperHex hw hs hc.next
  refine ⟨_, ?_, hskip⟩
  rw [escapeAt, hc.peek, hnone, hwidth]
  simp [hnumber, symbolWithNumber_number, bind, Except.bind]

/-- An escape is a letter that stands for the character, or the number of the symbol. -/
theorem escape?_cases {s : Symbol} {e : String} (h : escape? s = some e) :
    (∃ letter x, s = .char x ∧ escapes.lookup letter = some x ∧ e.toList = ['\\', letter]) ∨
      ∃ letter w, 0 < w ∧ escapes.lookup letter = none ∧ escapeWidth? letter = some w ∧
        s.number < 16 ^ w ∧ e.toList = '\\' :: letter :: (upperHex w s.number).toList := by
  unfold escape? at h
  split at h
  · rename_i letter hlookup
    cases h
    obtain ⟨x, hx, hlookup⟩ := Option.bind_eq_some_iff.mp hlookup
    refine .inl ⟨letter, x, eq_char_of_char? hx, escapes_letters _ (mem_of_lookup hlookup), ?_⟩
    rw [String.toList_append, String.toList_singleton]
    rfl
  · dsimp only at h
    split at h
    · cases h
    · split at h
      · cases h
        exact .inr ⟨'x', 2, by decide, by decide, rfl, by omega, String.toList_append⟩
      · split at h
        · cases h
          exact .inr ⟨'u', 4, by decide, by decide, rfl, by omega, String.toList_append⟩
        · cases h
          have hlt := number_lt s
          exact .inr ⟨'U', 8, by decide, by decide, rfl, by omega, String.toList_append⟩

/-- **An escape reads back** as its symbol. -/
theorem readsAs_escape {s : Symbol} {e : String} {after : List Char} (h : escape? s = some e) :
    ReadsAs true after e.toList [s] := by
  rcases escape?_cases h with ⟨letter, x, rfl, hletter, heq⟩ |
    ⟨letter, w, hw, hnone, hwidth, hs, heq⟩
  · rw [heq]
    exact readsAs_letter hletter
  · rw [heq]
    exact readsAs_hex hw hnone hwidth hs

theorem escape_toList {s : Symbol} {e : String} (h : escape? s = some e) :
    ∃ y ys, e.toList = '\\' :: y :: ys := by
  rcases escape?_cases h with ⟨letter, x, -, -, heq⟩ | ⟨letter, w, -, -, -, -, heq⟩
  · exact ⟨_, _, heq⟩
  · exact ⟨_, _, heq⟩

/-- Half of a pair is always escaped. -/
theorem exists_char_of_escape?_eq_none {s : Symbol} (h : escape? s = none) : ∃ x, s = .char x := by
  cases s with
  | char x => exact ⟨x, rfl⟩
  | half k =>
      have hrange := k.isHalf
      simp only [Text.isHighHalf, Text.isLowHalf, Bool.or_eq_true, Bool.and_eq_true,
        decide_eq_true_eq] at hrange
      unfold escape? at h
      dsimp only [Symbol.char?, Symbol.number, Option.bind_none] at h
      split at h
      · rename_i hplain
        simp only [bne_iff_ne, Bool.and_eq_true, Bool.or_eq_true, decide_eq_true_eq] at hplain
        omega
      · split at h
        · cases h
        · split at h <;> cases h

theorem ne_of_escape?_eq_none {x d : Char} (h : escape? (.char x) = none)
    (hd : (escape? (.char d)).isSome = true) : x ≠ d := by
  rintro rfl
  rw [h] at hd
  cases hd

theorem isGap_of_escape?_eq_none {x : Char} (h : escape? (.char x) = none) (hblank : x ≠ ' ') :
    isGap x = false := by
  have hne : ∀ d, (escape? (.char d)).isSome = true → (x == d) = false := fun d hd =>
    beq_eq_false_iff_ne.2 (ne_of_escape?_eq_none h hd)
  simp [isGap, isSpaceOrEnd, isLineEnd, isBreak, endMark, hblank, hne '\t' (by decide),
    hne '\x00' (by decide), hne '\r' (by decide), hne '\n' (by decide), hne '\u0085' (by decide),
    hne '\u2028' (by decide), hne '\u2029' (by decide)]

theorem readsAs_fold {after : List Char} {k : Nat} (hk : 0 < k) (hafter : StartsWord after) :
    ReadsAs true after ('\\' :: lineStart k) [] := by
  refine readsAs_of_escapeAt fun c hc => ?_
  rw [lineStart, List.cons_append] at hc
  obtain ⟨c', heq, hc'⟩ := @quotedBreaks_holds after k hk hafter [] c.next.budget [] c.next
    (by simp) hc.next (by rw [hc.next.budget]; simp)
  refine ⟨c', ?_, hc'⟩
  rw [escapeAt, hc.peek, hc.lineBreak (.inl rfl)]
  show (quotedBreaks c.next.budget [] c.next >>= _) = _
  rw [heq]
  rfl

/-! ## Between double quotes -/

/-- The characters between double quotes from a column on; `fresh` tells whether nothing stands
between the last escape or break and here. -/
def doubleChars (room : Room) (first : Bool) (column : Nat) (fresh : Bool) :
    List Symbol → List Char
  | [] => []
  | s :: rest =>
    let breakable := room.split && !first && !rest.isEmpty
    match escape? s with
    | some e =>
      if breakable && width + 1 < column + e.length then
        let lead := guard rest.head?
        e.toList ++ '\\' :: lineStart room.indent ++ lead.toList ++
          doubleChars room false (room.indent + lead.length) true rest
      else e.toList ++ doubleChars room false (column + e.length) true rest
    | none =>
      if breakable && (s == blank || fresh) && width < column then
        let lead := guard (some s)
        '\\' :: lineStart room.indent ++ lead.toList ++ s.char?.toList ++
          doubleChars room false (room.indent + lead.length + 1) false rest
      else s.char?.toList ++ doubleChars room false (column + 1) false rest

theorem toList_doubleFrom (room : Room) :
    ∀ (row : List Symbol) (written : String) (first : Bool) (column : Nat) (pending : List Char),
      (doubleFrom room written first column pending row).toList =
        written.toList ++ pending.reverse ++
          doubleChars room first (column + pending.length) pending.isEmpty row
  | [], _, _, _, _ => by simp [doubleFrom, doubleChars]
  | s :: rest, written, first, column, pending => by
      rw [doubleFrom, doubleChars]
      cases hescape : escape? s with
      | some e =>
          simp only
          split
          · rw [toList_doubleFrom]
            simp
          · rw [toList_doubleFrom]
            simp
      | none =>
          obtain ⟨x, rfl⟩ := exists_char_of_escape?_eq_none hescape
          simp only
          split
          · rw [toList_doubleFrom]
            simp [Symbol.char?]
          · rw [toList_doubleFrom]
            simp [Symbol.char?, Nat.add_assoc]

theorem toList_double (room : Room) (column : Nat) (row : List Symbol) :
    (double room column row).toList =
      '\x22' :: (doubleChars room true (column + 1) true row ++ ['\x22']) := by
  simp [double, toList_doubleFrom]

/-- A blank and something after it. -/
def blankAhead : List Symbol → Bool
  | .char ' ' :: _ :: _ => true
  | _ => false

/-- What symbols between double quotes read back as. Where the indentation leaves no room on a line,
an escape other than the first symbol is told apart from a blank after it. -/
def rereadDouble (indent : Nat) (first : Bool) : List Symbol → List Symbol
  | [] => []
  | s :: rest =>
    let strained := !first && (escape? s).isSome && blankAhead rest && width ≤ indent
    s :: (if strained then [.char '\\', blank] else []) ++ rereadDouble indent false rest

theorem readsAs_blanks_append {double : Bool} {after ds : List Char} {out : List Symbol} (n : Nat)
    (hafter : StartsWord (ds ++ after)) (h : ReadsAs double after ds out) :
    ReadsAs double after (List.replicate n ' ' ++ ds) (List.replicate n blank ++ out) := by
  cases n with
  | zero => exact h
  | succ n => exact .append (readsAs_blanks hafter) h

theorem startsWord_slash (cs : List Char) : StartsWord ('\\' :: cs) :=
  ⟨'\\', cs, rfl, by decide, by decide, by decide, by decide⟩

theorem startsWord_of_escape?_eq_none {x : Char} {cs : List Char} (h : escape? (.char x) = none)
    (hblank : x ≠ ' ') : StartsWord (x :: cs) := by
  have hgap := isGap_of_escape?_eq_none h hblank
  simp only [isGap, isSpaceOrEnd, isLineEnd, Bool.or_eq_false_iff, beq_eq_false_iff_ne] at hgap
  exact ⟨x, cs, rfl, hblank, hgap.1, hgap.2.2.1, hgap.2.2.2⟩

/-- What starts with no blank is written so, too. -/
theorem startsWord_doubleChars {room : Room} {first fresh : Bool} {column : Nat}
    {row : List Symbol} {tail : List Char} (hrow : row.head? ≠ some blank) :
    StartsWord (doubleChars room first column fresh row ++ '\x22' :: tail) := by
  cases row with
  | nil => exact ⟨'\x22', tail, rfl, by decide, by decide, by decide, by decide⟩
  | cons s row =>
      have hs : s ≠ blank := by simpa using hrow
      rw [doubleChars]
      cases h : escape? s with
      | some e =>
          obtain ⟨y, ys, heq⟩ := escape_toList h
          simp only [heq]
          split <;> exact startsWord_slash _
      | none =>
          obtain ⟨x, rfl⟩ := exists_char_of_escape?_eq_none h
          simp only
          split
          · exact startsWord_slash _
          · exact startsWord_of_escape?_eq_none h fun hx => hs (by rw [hx, blank])

theorem escape?_blank : escape? blank = none := by decide

/-- After a broken line, a blank is kept by a backslash. Where it is broken off once more, this
backslash comes before another, and a blank is read for the line end. -/
theorem readsAs_broken_blank {room : Room} {tail : List Char} {rest : List Symbol}
    (hroom : 0 < room.indent) (hsplit : room.split = true)
    (hrest : ∀ column fresh, room.indent ≤ column → ReadsAs true ('\x22' :: tail)
      (doubleChars room false column fresh rest) (rereadDouble room.indent false rest)) :
    ReadsAs true ('\x22' :: tail)
      ('\\' :: lineStart room.indent ++
        '\\' :: doubleChars room false (room.indent + 1) true (blank :: rest))
      ((if blankAhead (blank :: rest) && width ≤ room.indent then [.char '\\', blank] else []) ++
        rereadDouble room.indent false (blank :: rest)) := by
  have hblank : rereadDouble room.indent false (blank :: rest) =
      [blank] ++ rereadDouble room.indent false rest := by
    rw [rereadDouble, escape?_blank]
    rfl
  have hahead : blankAhead (blank :: rest) = !rest.isEmpty := by
    cases rest <;> rfl
  have hwidth : decide (width < room.indent + 1) = decide (width ≤ room.indent) := by
    simp
  rw [doubleChars, escape?_blank]
  simp only [hsplit, hahead, hwidth, Bool.true_and, Bool.not_false, Bool.and_true, beq_self_eq_true,
    Bool.true_or]
  split
  · rw [hblank, List.append_assoc, List.append_assoc]
    show ReadsAs true _ (('\\' :: lineStart room.indent) ++ (['\\', '\\'] ++
      (lineStart room.indent ++ (['\\', ' '] ++ doubleChars room false _ false rest))))
      ([] ++ ([.char '\\'] ++ ([blank] ++ ([blank] ++ rereadDouble room.indent false rest))))
    refine .append (readsAs_fold hroom (startsWord_slash _)) ?_
    refine .append (readsAs_letter (by decide)) ?_
    refine .append (readsAs_lineStart hroom (startsWord_slash _)) ?_
    exact .append (readsAs_letter (by decide)) (hrest _ _ (by omega))
  · rw [hblank]
    show ReadsAs true _ (('\\' :: lineStart room.indent) ++ (['\\', ' '] ++
      doubleChars room false _ false rest)) ([] ++ ([blank] ++ rereadDouble room.indent false rest))
    refine .append (readsAs_fold hroom (startsWord_slash _)) ?_
    exact .append (readsAs_letter (by decide)) (hrest _ _ (by omega))

theorem blankAhead_of_ne {s : Symbol} {rest : List Symbol} (hs : s ≠ blank) :
    blankAhead (s :: rest) = false := by
  unfold blankAhead
  split
  · rename_i heq
    simp only [List.cons.injEq] at heq
    exact absurd heq.1 hs
  · rfl

/-- An escape, after which the line may be broken. -/
theorem readsAs_double_escape {room : Room} {first fresh : Bool} {column : Nat}
    {tail : List Char} {rest : List Symbol} {s : Symbol} {e : String} (hroom : 0 < room.indent)
    (hsplit : room.split = true) (hcol : room.indent ≤ column) (h : escape? s = some e)
    (hrest : ∀ column fresh, room.indent ≤ column → ReadsAs true ('\x22' :: tail)
      (doubleChars room false column fresh rest) (rereadDouble room.indent false rest))
    (hnext : ∀ column fresh, room.indent ≤ column → ReadsAs true ('\x22' :: tail)
      (doubleChars room false column fresh rest.tail) (rereadDouble room.indent false rest.tail)) :
    ReadsAs true ('\x22' :: tail) (doubleChars room first column fresh (s :: rest))
      (rereadDouble room.indent first (s :: rest)) := by
  obtain ⟨y, ys, heq⟩ := escape_toList h
  have hlength : 2 ≤ e.length := by
    rw [← String.length_toList, heq]
    simp
  rw [doubleChars, rereadDouble, h]
  simp only [hsplit, Bool.true_and, Option.isSome_some, Bool.and_true]
  show ReadsAs true _ _ ([s] ++ (_ ++ _))
  split
  · rename_i hbreak
    simp only [Bool.and_eq_true, Bool.not_eq_true', List.isEmpty_eq_false_iff] at hbreak
    obtain ⟨⟨rfl, hne⟩, -⟩ := hbreak
    obtain ⟨z, rest, rfl⟩ := List.exists_cons_of_ne_nil hne
    by_cases hz : z = blank
    · subst hz
      rw [List.append_assoc, List.append_assoc]
      refine .append (readsAs_escape h) ?_
      have hguard : (Writer.guard (some blank)).toList = ['\\'] ∧
          (Writer.guard (some blank)).length = 1 := ⟨rfl, rfl⟩
      simpa [hguard] using readsAs_broken_blank hroom hsplit hnext
    · have hguard : Writer.guard (z :: rest).head? = "" := by simp [Writer.guard, hz]
      rw [hguard, blankAhead_of_ne hz, List.append_assoc, List.append_assoc]
      refine .append (readsAs_escape h) ?_
      show ReadsAs true _
        (('\\' :: lineStart room.indent) ++ doubleChars room false _ true (z :: rest))
        ([] ++ rereadDouble room.indent false (z :: rest))
      refine .append (readsAs_fold hroom (startsWord_doubleChars (by simpa using hz))) ?_
      exact hrest _ _ (by simp)
  · rename_i hroomy
    -- A line with an escape after its indentation would have been broken.
    have hstrained : (!first && blankAhead rest && decide (width ≤ room.indent)) = false := by
      cases rest with
      | nil => simp [blankAhead]
      | cons z rest =>
          cases first with
          | true => rfl
          | false =>
              have hshort : column + e.length ≤ width + 1 := by simpa using hroomy
              have hnarrow : ¬width ≤ room.indent := by omega
              simp [hnarrow]
    rw [hstrained]
    exact .append (readsAs_escape h) (hrest _ _ (by omega))

/-- A character that stands for itself, before which the line may be broken. -/
theorem readsAs_double_char {room : Room} {first fresh : Bool} {column n : Nat}
    {tail : List Char} {rest : List Symbol} {x : Char} (hroom : 0 < room.indent)
    (h : escape? (.char x) = none) (hcol : room.indent ≤ column)
    (hrest : ∀ n column fresh, room.indent ≤ column → ReadsAs true ('\x22' :: tail)
      (List.replicate n ' ' ++ doubleChars room false column fresh rest)
      (List.replicate n blank ++ rereadDouble room.indent false rest)) :
    ReadsAs true ('\x22' :: tail)
      (List.replicate n ' ' ++ doubleChars room first column fresh (.char x :: rest))
      (List.replicate n blank ++ rereadDouble room.indent first (.char x :: rest)) := by
  have hreread : rereadDouble room.indent first (.char x :: rest) =
      .char x :: rereadDouble room.indent false rest := by
    rw [rereadDouble, h]
    simp
  have hchar : x ≠ ' ' → ∀ after, ReadsAs true after [x] [.char x] := fun hx after =>
    readsAs_char (isGap_of_escape?_eq_none h hx) (ne_of_escape?_eq_none h (by decide))
      fun _ => ne_of_escape?_eq_none h (by decide)
  rw [doubleChars, hreread, h]
  simp only
  split
  · refine readsAs_blanks_append n (startsWord_slash _) ?_
    rw [List.append_assoc, List.append_assoc]
    by_cases hx : x = ' '
    · subst hx
      show ReadsAs true _ (('\\' :: lineStart room.indent) ++ (['\\', ' '] ++
        doubleChars room false _ false rest))
        ([] ++ ([blank] ++ rereadDouble room.indent false rest))
      refine .append (readsAs_fold hroom (startsWord_slash _)) ?_
      exact .append (readsAs_letter (by decide)) (hrest 0 _ _ (by omega))
    · have hguard : Writer.guard (some (.char x)) = "" := by simp [Writer.guard, blank, hx]
      rw [hguard]
      show ReadsAs true _ (('\\' :: lineStart room.indent) ++ ([x] ++
        doubleChars room false _ false rest))
        ([] ++ ([.char x] ++ rereadDouble room.indent false rest))
      refine .append (readsAs_fold hroom (startsWord_of_escape?_eq_none h hx)) ?_
      exact .append (hchar hx _) (hrest 0 _ _ (by omega))
  · by_cases hx : x = ' '
    · subst hx
      have hmore := hrest (n + 1) (column + 1) false (by omega)
      rwa [List.replicate_succ', List.replicate_succ', List.append_assoc, List.append_assoc] at hmore
    · refine readsAs_blanks_append n (startsWord_of_escape?_eq_none h hx) ?_
      exact .append (hchar hx _) (hrest 0 _ _ (by omega))

theorem readsAs_double_cons {room : Room} {first fresh : Bool} {column : Nat} {tail : List Char}
    {rest : List Symbol} {s : Symbol} (n : Nat) (hroom : 0 < room.indent)
    (hsplit : room.split = true) (hcol : room.indent ≤ column)
    (hrest : ∀ n column fresh, room.indent ≤ column → ReadsAs true ('\x22' :: tail)
      (List.replicate n ' ' ++ doubleChars room false column fresh rest)
      (List.replicate n blank ++ rereadDouble room.indent false rest))
    (hnext : ∀ column fresh, room.indent ≤ column → ReadsAs true ('\x22' :: tail)
      (doubleChars room false column fresh rest.tail) (rereadDouble room.indent false rest.tail)) :
    ReadsAs true ('\x22' :: tail)
      (List.replicate n ' ' ++ doubleChars room first column fresh (s :: rest))
      (List.replicate n blank ++ rereadDouble room.indent first (s :: rest)) := by
  cases h : escape? s with
  | some e =>
      refine readsAs_blanks_append n (startsWord_doubleChars ?_)
        (readsAs_double_escape hroom hsplit hcol h (hrest 0) hnext)
      rintro hs
      rw [List.head?_cons, Option.some_inj] at hs
      rw [hs, escape?_blank] at h
      cases h
  | none =>
      obtain ⟨x, rfl⟩ := exists_char_of_escape?_eq_none h
      exact readsAs_double_char hroom h hcol hrest

/-- **Between double quotes, symbols read back one by one**, after blanks that are still to be
read. -/
theorem readsAs_double {room : Room} (hroom : 0 < room.indent) (hsplit : room.split = true)
    {tail : List Char} : ∀ (row : List Symbol) {first : Bool} (n column : Nat) (fresh : Bool),
      room.indent ≤ column → ReadsAs true ('\x22' :: tail)
        (List.replicate n ' ' ++ doubleChars room first column fresh row)
        (List.replicate n blank ++ rereadDouble room.indent first row)
  | [], _, n, _, _, _ =>
      readsAs_blanks_append n
        ⟨'\x22', tail, rfl, by decide, by decide, by decide, by decide⟩ .nil
  | [_], _, n, _, _, hcol =>
      readsAs_double_cons n hroom hsplit hcol (readsAs_double hroom hsplit [])
        (@readsAs_double room hroom hsplit tail [] false 0)
  | _ :: y :: rest, _, n, _, _, hcol =>
      readsAs_double_cons n hroom hsplit hcol (readsAs_double hroom hsplit (y :: rest))
        (readsAs_double hroom hsplit rest 0)

/-- **A row of symbols between double quotes reads back** as its symbols do. -/
theorem quotedScalar_double {room : Room} {column : Nat} {row : List Symbol} {tail : List Char}
    {c : Cursor} (hroom : 0 < room.indent) (hsplit : room.split = true)
    (hcol : room.indent ≤ column) (hc : c.Holds ((double room column row).toList ++ tail)) :
    ∃ c', quotedScalar true c = .ok (.ofSymbols (rereadDouble room.indent true row), c') ∧
      c'.Holds tail := by
  rw [toList_double, List.cons_append, List.append_assoc, List.singleton_append] at hc
  obtain ⟨bound, c', heq, hc', hbound⟩ := readsAs_double hroom hsplit row 0 (column + 1) true
    (by omega) c.budget [] c.next hc.next (by
      rw [hc.budget, List.length_cons]
      simp)
  obtain ⟨bound, rfl⟩ := Nat.exists_eq_succ_of_ne_zero (Nat.ne_of_gt (Nat.zero_lt_of_lt hbound))
  refine ⟨c'.next, ?_, hc'.next⟩
  rw [quotedScalar, heq, quotedFrom, hc'.peek]
  simp

/-- An escape, other than the first symbol, before a blank with something after it. -/
def hasStrain (first : Bool) : List Symbol → Bool
  | [] => false
  | s :: rest => (!first && (escape? s).isSome && blankAhead rest) || hasStrain false rest

theorem length_le_rereadDouble (indent : Nat) : ∀ (row : List Symbol) (first : Bool),
    row.length ≤ (rereadDouble indent first row).length
  | [], _ => Nat.le_refl _
  | c :: rest, first => by
      have hrest := length_le_rereadDouble indent rest false
      rw [rereadDouble]
      simp only [List.length_append, List.length_cons]
      omega

/-- **What double quotes keep.** A row of symbols reads back as itself exactly if there is room on
its lines, or no escape in it before a blank. -/
theorem rereadDouble_eq_self_iff {indent : Nat} : ∀ {row : List Symbol} {first : Bool},
    rereadDouble indent first row = row ↔ (width ≤ indent → hasStrain first row = false)
  | [], _ => by simp [rereadDouble, hasStrain]
  | s :: rest, first => by
      rw [rereadDouble, hasStrain]
      have hrest := @rereadDouble_eq_self_iff indent rest false
      by_cases hwidth : width ≤ indent
      · cases hstrain : (!first && (escape? s).isSome && blankAhead rest)
        · simpa [hwidth] using hrest
        · have hlength := length_le_rereadDouble indent rest false
          simp only [hwidth, decide_true, Bool.and_true, if_true, Bool.true_or, true_imp_iff,
            Bool.true_eq_false, iff_false]
          intro heq
          have := congrArg List.length heq
          simp only [List.length_append, List.length_cons] at this
          omega
      · simpa [hwidth] using hrest

end Limn.Yaml
