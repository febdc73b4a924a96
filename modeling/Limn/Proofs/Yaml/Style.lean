import Limn.Proofs.Yaml.Cursor
import Limn.Yaml.Writer
import Mathlib.Data.List.SplitBy

/-! # Texts by their shape

Which characters a text may hold in each style, and how it falls into runs. A text that can stand
between apostrophes is a row of words and gaps: a gap is blanks only or breaks only, and a word
follows it. A text that can stand plain has no breaks, and starts and ends with a word.
-/

namespace Limn.Yaml.Writer

/-! ## Characters -/

section Characters

variable {c : Char}

theorem beq_of_ordinary {d : Char} (h : isSpecial c = false) (hd : isSpecial d = true) :
    (c == d) = false := by
  rw [beq_eq_false_iff_ne]
  rintro rfl
  rw [h] at hd
  cases hd

theorem isAllowed_of_ordinary (h : isSpecial c = false) : isAllowed c = true := by
  simp only [isSpecial, Bool.not_eq_false', Bool.or_eq_true, Bool.and_eq_true, beq_iff_eq,
    bne_iff_ne, decide_eq_true_eq] at h
  simp only [isAllowed, Bool.or_eq_true, Bool.and_eq_true, beq_iff_eq, decide_eq_true_eq]
  rcases h with (rfl | h) | h
  · decide
  · omega
  · omega

theorem isGap_of_ordinary (h : isSpecial c = false) :
    isGap c = (c == ' ' || isWrittenBreak c) := by
  have htab := beq_of_ordinary h (d := '\t') (by decide)
  have hend := beq_of_ordinary h (d := endMark) (by decide)
  have hret := beq_of_ordinary h (d := '\r') (by decide)
  simp [isGap, isSpaceOrEnd, isLineEnd, isBreak, isWrittenBreak, htab, hend, hret]

theorem isBreak_of_ordinary (h : isSpecial c = false) : isBreak c = isWrittenBreak c := by
  have hret := beq_of_ordinary h (d := '\r') (by decide)
  simp [isBreak, isWrittenBreak, hret]

theorem isFlat_of_ordinary (h : isSpecial c = false) (hb : isWrittenBreak c = false) :
    isFlat c = true := by
  have hbom := beq_of_ordinary h (d := '\ufeff') (by decide)
  simp [isFlat, bne, isBreak_of_ordinary h, hb, hbom]

theorem isWrittenBreak_cases (h : isWrittenBreak c = true) :
    c = '\n' ∨ c = '\u0085' ∨ c = '\u2028' ∨ c = '\u2029' := by
  simpa [isWrittenBreak, or_assoc] using h

theorem ne_blank_of_isWrittenBreak (h : isWrittenBreak c = true) : c ≠ ' ' := by
  rintro rfl
  cases h

end Characters

/-! ## Neighbours -/

theorem hasPair_eq_false_iff {p q : Char → Bool} : ∀ {cs : List Char},
    hasPair p q cs = false ↔ cs.IsChain fun a b => p a = true → q b = false
  | [] => by simp [hasPair]
  | [_] => by simp [hasPair]
  | a :: b :: rest => by
      rw [hasPair, Bool.or_eq_false_iff, hasPair_eq_false_iff, List.isChain_cons_cons]
      refine and_congr_left fun _ => ?_
      cases p a <;> simp

/-- **No sign inside.** A colon comes before no gap, and a number sign after none. -/
theorem signInside_eq_false_iff : ∀ {cs : List Char},
    signInside cs = false ↔
      (∀ u v, cs = u ++ ':' :: v → u ≠ [] → isGap (v.headD endMark) = false) ∧
        cs.IsChain fun a b => isGap a = true → b ≠ '#'
  | [] => by simp [signInside]
  | [a] => by
      simp only [signInside, List.isChain_singleton, and_true, true_iff]
      intro u v h hu
      cases u with
      | nil => contradiction
      | cons x u => simp at h
  | a :: b :: rest => by
      rw [signInside, Bool.or_eq_false_iff, signInside_eq_false_iff, List.isChain_cons_cons]
      constructor
      · rintro ⟨hhere, hcolon, hsharp⟩
        rw [Bool.or_eq_false_iff] at hhere
        refine ⟨?_, ?_, hsharp⟩
        · rintro (_ | ⟨x, u⟩) v h hu
          · contradiction
          · rw [List.cons_append, List.cons.injEq] at h
            obtain ⟨-, h⟩ := h
            by_cases hnil : u = []
            · subst hnil
              simp only [List.nil_append, List.cons.injEq] at h
              obtain ⟨rfl, rfl⟩ := h
              simpa using hhere.1
            · exact hcolon u v h hnil
        · intro ha hb
          subst hb
          simp [ha] at hhere
      · rintro ⟨hcolon, hhere, hsharp⟩
        refine ⟨?_, ?_, hsharp⟩
        · rw [Bool.or_eq_false_iff]
          constructor
          · by_cases hb : b = ':'
            · subst hb
              simpa using hcolon [a] rest rfl (by simp)
            · simp [hb]
          · cases ha : isGap a
            · simp
            · simpa using hhere ha
        · intro u v h hu
          exact hcolon (a :: u) v (by rw [h]; rfl) (by simp)

/-! ## Runs -/

/-- Two characters may stand in one run. -/
def SameClass (a b : Char) : Prop :=
  (a == ' ') = (b == ' ') ∧ isWrittenBreak a = isWrittenBreak b

/-- Characters between blanks and breaks. -/
def IsWord (run : List Char) : Prop :=
  run ≠ [] ∧ ∀ x ∈ run, x ≠ ' ' ∧ isWrittenBreak x = false

/-- Blanks only, or breaks only. -/
def IsGapRun (run : List Char) : Prop :=
  run ≠ [] ∧ ((∀ x ∈ run, x = ' ') ∨ ∀ x ∈ run, isWrittenBreak x = true)

/-- Words and gaps in turn. -/
inductive Spaced : List (List Char) → Prop where
  | nil : Spaced []
  | word {w : List Char} {rest : List (List Char)} :
      IsWord w → (∀ g ∈ rest.head?, IsGapRun g) → Spaced rest → Spaced (w :: rest)
  | gap {g : List Char} {rest : List (List Char)} :
      IsGapRun g → (∀ w ∈ rest.head?, IsWord w) → Spaced rest → Spaced (g :: rest)

theorem not_isGapRun {run : List Char} (h : IsWord run) : ¬IsGapRun run := by
  rintro ⟨hne, hrun⟩
  obtain ⟨x, run, rfl⟩ := List.exists_cons_of_ne_nil hne
  obtain ⟨hx, hxb⟩ := h.2 x List.mem_cons_self
  rcases hrun with hrun | hrun
  · exact hx (hrun x List.mem_cons_self)
  · rw [hrun x List.mem_cons_self] at hxb
    cases hxb

theorem eq_blanks {run : List Char} (hne : run ≠ []) (h : ∀ x ∈ run, x = ' ') :
    ∃ n, run = List.replicate (n + 1) ' ' := by
  refine ⟨run.length - 1, List.eq_replicate_iff.2 ⟨?_, h⟩⟩
  have := List.length_pos_iff.2 hne
  omega

theorem flatten_runs (cs : List Char) : (runs cs).flatten = cs :=
  List.flatten_splitBy _ cs

theorem isChain_sameClass : ∀ {x : Char} {run : List Char},
    (x :: run).IsChain SameClass → ∀ y ∈ x :: run, SameClass y x
  | _, [], _, y, hy => by
      rw [List.mem_singleton] at hy
      subst hy
      exact ⟨rfl, rfl⟩
  | x, z :: run, h, y, hy => by
      rw [List.isChain_cons_cons] at h
      rcases List.mem_cons.1 hy with rfl | hy
      · exact ⟨rfl, rfl⟩
      · have hyz := isChain_sameClass h.2 y hy
        exact ⟨hyz.1.trans h.1.1.symm, hyz.2.trans h.1.2.symm⟩

/-- A run is a word or a gap, and which of them its first character tells. -/
theorem isWord_or_isGapRun {x : Char} {run : List Char} (h : (x :: run).IsChain SameClass) :
    IsWord (x :: run) ∧ x ≠ ' ' ∧ isWrittenBreak x = false ∨
      IsGapRun (x :: run) ∧ (x = ' ' ∨ isWrittenBreak x = true) := by
  have hall := isChain_sameClass h
  by_cases hx : x = ' '
  · refine .inr ⟨⟨by simp, .inl fun y hy => ?_⟩, .inl hx⟩
    simpa [hx] using (hall y hy).1
  · by_cases hb : isWrittenBreak x = true
    · exact .inr ⟨⟨by simp, .inr fun y hy => (hall y hy).2.trans hb⟩, .inr hb⟩
    · rw [Bool.not_eq_true] at hb
      refine .inl ⟨⟨by simp, fun y hy => ⟨?_, (hall y hy).2.trans hb⟩⟩, hx, hb⟩
      have hy := (hall y hy).1
      rw [beq_eq_false_iff_ne.2 hx] at hy
      exact beq_eq_false_iff_ne.1 hy

theorem spaced_of_chain : ∀ {rs : List (List Char)},
    (∀ run ∈ rs, run ≠ [] ∧ run.IsChain SameClass) →
    (rs.IsChain fun a b => ∃ ha hb, ¬SameClass (a.getLast ha) (b.head hb)) →
    hasPair isWrittenBreak (· == ' ') rs.flatten = false →
    hasPair (· == ' ') isWrittenBreak rs.flatten = false → Spaced rs
  | [], _, _, _, _ => .nil
  | [] :: _, hrun, _, _, _ => absurd rfl (hrun [] List.mem_cons_self).1
  | (x :: run) :: rest, hrun, hchain, hbb, hbr => by
      have hhere := (hrun _ List.mem_cons_self).2
      rw [hasPair_eq_false_iff, List.flatten_cons, List.isChain_append] at hbb hbr
      have htail : Spaced rest :=
        spaced_of_chain (fun r hr => hrun r (List.mem_cons_of_mem _ hr))
          (List.IsChain.tail hchain) (hasPair_eq_false_iff.2 hbb.2.1)
          (hasPair_eq_false_iff.2 hbr.2.1)
      cases rest with
      | nil =>
          rcases isWord_or_isGapRun hhere with ⟨h, -⟩ | ⟨h, -⟩
          · exact .word h (by simp) htail
          · exact .gap h (by simp) htail
      | cons next rest =>
          obtain ⟨hnext, hnextChain⟩ := hrun next (by simp)
          cases next with
          | nil => contradiction
          | cons z next =>
              rw [List.isChain_cons_cons] at hchain
              obtain ⟨⟨ha, hb, hdiff⟩, -⟩ := hchain
              -- The last character of the run has the class of the first.
              have hlast := isChain_sameClass hhere _ (List.getLast_mem ha)
              have hmem : (x :: run).getLast ha ∈ (x :: run).getLast? := by
                rw [List.getLast?_eq_some_getLast ha, Option.mem_some]
              have hbefore := hbb.2.2 _ hmem z (by simp)
              have hafter := hbr.2.2 _ hmem z (by simp)
              simp only [SameClass, hlast.1, hlast.2] at hdiff hbefore hafter
              rcases isWord_or_isGapRun hhere with ⟨h, hx, hxb⟩ | ⟨h, hx⟩
              · refine .word h ?_ htail
                rcases isWord_or_isGapRun hnextChain with ⟨-, hz, hzb⟩ | ⟨hz, -⟩
                · simp [hx, hxb, hz, hzb] at hdiff
                · simpa using hz
              · refine .gap h ?_ htail
                rcases isWord_or_isGapRun hnextChain with ⟨hz, -⟩ | ⟨-, hz⟩
                · simpa using hz
                · rcases hx with rfl | hx <;> rcases hz with rfl | hz
                  · simp at hdiff
                  · simp [hz] at hafter
                  · simp [hx] at hbefore
                  · simp [ne_blank_of_isWrittenBreak hx, ne_blank_of_isWrittenBreak hz, hx, hz] at hdiff

/-- **A quotable text is words and gaps in turn.** -/
theorem spaced_runs {cs : List Char} (hbb : hasPair isWrittenBreak (· == ' ') cs = false)
    (hbr : hasPair (· == ' ') isWrittenBreak cs = false) : Spaced (runs cs) := by
  refine spaced_of_chain (fun run hrun => ⟨List.ne_nil_of_mem_splitBy hrun, ?_⟩) ?_ ?_ ?_
  · refine (List.isChain_of_mem_splitBy hrun).imp fun a b h => ?_
    simpa [SameClass] using h
  · refine (List.isChain_getLast_head_splitBy _ cs).imp fun a b => ?_
    rintro ⟨ha, hb, h⟩
    refine ⟨ha, hb, ?_⟩
    rintro ⟨h1, h2⟩
    simp [h1, h2] at h
  · rwa [flatten_runs]
  · rwa [flatten_runs]

theorem Spaced.mem {rs : List (List Char)} (h : Spaced rs) :
    ∀ run ∈ rs, IsWord run ∨ IsGapRun run := by
  induction h with
  | nil => simp
  | word hw _ _ ih => simpa [hw] using ih
  | gap hg _ _ ih => simpa [hg] using ih

/-! ## Plain texts -/

/-- A word that a plain text may hold: it does not start like a comment or end like a key. -/
structure PlainWord (w : List Char) : Prop where
  word : IsWord w
  ordinary : ∀ x ∈ w, isSpecial x = false
  head_ne : w.head? ≠ some '#'
  last_ne : w.getLast? ≠ some ':'

/-- Plain words with blanks between them. -/
inductive Phrase : List (List Char) → Prop where
  | last {w : List Char} : PlainWord w → Phrase [w]
  | cons {w : List Char} {n : Nat} {rest : List (List Char)} :
      PlainWord w → Phrase rest → Phrase (w :: List.replicate (n + 1) ' ' :: rest)

theorem PlainWord.isGap {w : List Char} (h : PlainWord w) : ∀ x ∈ w, isGap x = false := by
  intro x hx
  rw [isGap_of_ordinary (h.ordinary x hx), (h.word.2 x hx).2, beq_eq_false_iff_ne.2 (h.word.2 x hx).1]
  rfl

theorem PlainWord.isFlat {w : List Char} (h : PlainWord w) : ∀ x ∈ w, isFlat x = true :=
  fun x hx => isFlat_of_ordinary (h.ordinary x hx) (h.word.2 x hx).2

theorem Phrase.ordinary {rs : List (List Char)} (h : Phrase rs) :
    ∀ x ∈ rs.flatten, isSpecial x = false := by
  induction h with
  | last hw => simpa using hw.ordinary
  | cons hw _ ih =>
      intro x hx
      rw [List.flatten_cons, List.flatten_cons] at hx
      rcases List.mem_append.1 hx with hx | hx
      · exact hw.ordinary x hx
      · rcases List.mem_append.1 hx with hx | hx
        · rw [List.eq_of_mem_replicate hx]
          decide
        · exact ih x hx

/-- What the runs of a plain text have in common, from any of its words on. -/
structure Sentence (cs : List Char) : Prop where
  ordinary : ∀ x ∈ cs, isSpecial x = false ∧ isWrittenBreak x = false
  colon : ∀ u v, cs = u ++ ':' :: v → isGap (v.headD endMark) = false
  sharp : cs.IsChain fun a b => isGap a = true → b ≠ '#'
  head_ne : cs.head? ≠ some '#'
  last_ne : cs.getLast? ≠ some ' '

theorem Sentence.word {w cs : List Char} (h : Sentence (w ++ cs)) (hw : IsWord w)
    (hgap : isGap (cs.headD endMark) = true) : PlainWord w where
  word := hw
  ordinary x hx := (h.ordinary x (List.mem_append_left _ hx)).1
  head_ne := by
    have hhead := h.head_ne
    rwa [List.head?_append_of_ne_nil _ hw.1] at hhead
  last_ne := by
    intro hlast
    obtain ⟨u, rfl⟩ := List.getLast?_eq_some_iff.1 hlast
    have hcolon := h.colon u cs (by simp)
    rw [hgap] at hcolon
    cases hcolon

theorem Sentence.suffix {pre cs : List Char} (h : Sentence (pre ++ cs))
    (hpre : pre.getLast? = some ' ') (hcs : cs ≠ []) : Sentence cs where
  ordinary x hx := h.ordinary x (List.mem_append_right _ hx)
  colon u v huv := h.colon (pre ++ u) v (by rw [huv, List.append_assoc])
  sharp := (List.isChain_append.1 h.sharp).2.1
  head_ne := by
    intro hhead
    exact (List.isChain_append.1 h.sharp).2.2 ' ' hpre '#' hhead (by decide) rfl
  last_ne := by
    have hlast := h.last_ne
    rwa [List.getLast?_append_of_ne_nil _ hcs] at hlast

theorem phrase_of_spaced : ∀ {rs : List (List Char)}, Spaced rs → (∃ w ∈ rs.head?, IsWord w) →
    Sentence rs.flatten → Phrase rs
  | [], _, hhead, _ => by
      obtain ⟨w, hw, -⟩ := hhead
      cases hw
  | [w], _, hhead, hs => by
      have hw : IsWord w := by simpa using hhead
      rw [List.flatten_cons] at hs
      exact .last (hs.word hw (by decide))
  | w :: g :: rest, hspaced, hhead, hs => by
      have hw : IsWord w := by simpa using hhead
      rw [List.flatten_cons, List.flatten_cons] at hs
      -- No break stands in the sentence, so the gap is blanks.
      have hg : IsGapRun g ∧ (∀ w ∈ rest.head?, IsWord w) ∧ Spaced rest := by
        cases hspaced with
        | word _ hnext htail =>
            have hgap := hnext g rfl
            cases htail with
            | word hword _ _ => exact absurd hgap (not_isGapRun hword)
            | gap _ hnext htail => exact ⟨hgap, hnext, htail⟩
        | gap hgap _ _ => exact absurd hgap (not_isGapRun hw)
      obtain ⟨⟨hne, hblank⟩, hnext, htail⟩ := hg
      obtain ⟨n, rfl⟩ : ∃ n, g = List.replicate (n + 1) ' ' := by
        rcases hblank with hblank | hbreak
        · exact eq_blanks hne hblank
        · obtain ⟨x, g, rfl⟩ := List.exists_cons_of_ne_nil hne
          have hx := (hs.ordinary x (by simp)).2
          rw [hbreak x List.mem_cons_self] at hx
          cases hx
      have hpre : (w ++ List.replicate (n + 1) ' ').getLast? = some ' ' := by
        simp [List.replicate_succ']
      have hrest : rest.flatten ≠ [] := by
        intro hnil
        have hlast := hs.last_ne
        rw [hnil, List.append_nil] at hlast
        exact hlast hpre
      refine .cons (hs.word hw (by simp [List.replicate_succ, isGap, isSpaceOrEnd])) ?_
      refine phrase_of_spaced htail ?_ ?_
      · cases rest with
        | nil => exact absurd rfl hrest
        | cons w' rest => exact ⟨w', rfl, hnext w' rfl⟩
      · rw [← List.append_assoc] at hs
        exact hs.suffix hpre hrest

/-- What the plain style asks of a text. -/
theorem isPlain_iff {s : String} : isPlain s = true ↔
    s.toList ≠ [] ∧ hasLooseEnd s.toList = false ∧ hasSign s.toList = false ∧
      (∀ x ∈ s.toList, isSpecial x = false ∧ isWrittenBreak x = false) ∧
      Scalar.typeOf s = .text := by
  simp only [isPlain, Bool.and_eq_true, Bool.not_eq_true', List.isEmpty_eq_false_iff,
    List.any_eq_false, Bool.not_eq_true, beq_iff_eq]
  constructor
  · rintro ⟨⟨⟨⟨⟨hne, hends⟩, hsign⟩, hbreak⟩, hspecial⟩, htype⟩
    exact ⟨hne, hends, hsign, fun x hx => ⟨hspecial x hx, hbreak x hx⟩, htype⟩
  · rintro ⟨hne, hends, hsign, hall, htype⟩
    exact ⟨⟨⟨⟨⟨hne, hends⟩, hsign⟩, fun x hx => (hall x hx).2⟩, fun x hx => (hall x hx).1⟩, htype⟩

theorem isQuotable_iff {s : String} : isQuotable s = true ↔
    (∀ x ∈ s.toList, isSpecial x = false) ∧
      hasPair isWrittenBreak (· == ' ') s.toList = false ∧
      hasPair (· == ' ') isWrittenBreak s.toList = false := by
  simp only [isQuotable, Bool.and_eq_true, Bool.not_eq_true', List.any_eq_false, Bool.not_eq_true,
    and_assoc]

theorem isQuotable_of_isPlain {s : String} (h : isPlain s = true) : isQuotable s = true := by
  obtain ⟨-, -, -, hall, -⟩ := isPlain_iff.1 h
  refine isQuotable_iff.2 ⟨fun x hx => (hall x hx).1, ?_, ?_⟩
  · refine hasPair_eq_false_iff.2 (List.Pairwise.isChain ?_)
    refine List.pairwise_of_forall_mem_list fun a ha b _ hbreak => ?_
    rw [(hall a ha).2] at hbreak
    cases hbreak
  · refine hasPair_eq_false_iff.2 (List.Pairwise.isChain ?_)
    exact List.pairwise_of_forall_mem_list fun a _ b hb _ => (hall b hb).2

theorem sentence_of_isPlain {s : String} (h : isPlain s = true) : Sentence s.toList := by
  obtain ⟨hne, hends, hsign, hall, -⟩ := isPlain_iff.1 h
  obtain ⟨x, cs, hcs⟩ := List.exists_cons_of_ne_nil hne
  simp only [hasLooseEnd, hasSign, Bool.or_eq_false_iff] at hends hsign
  obtain ⟨⟨-, hfirst⟩, hinside⟩ := hsign
  obtain ⟨hcolon, hsharp⟩ := signInside_eq_false_iff.1 hinside
  simp only [hcs, Bool.or_eq_false_iff] at hfirst
  refine ⟨hall, fun u v huv => ?_, hsharp, ?_, ?_⟩
  · by_cases hu : u = []
    · subst hu
      rw [hcs, List.nil_append, List.cons.injEq] at huv
      obtain ⟨rfl, rfl⟩ := huv
      simpa using hfirst.2
    · exact hcolon u v huv hu
  · intro hhead
    rw [hcs, List.head?_cons, Option.some_inj] at hhead
    subst hhead
    exact absurd hfirst.1 (by decide)
  · intro hlast
    simp [hlast] at hends

/-- **A plain text is a phrase.** -/
theorem phrase_runs {s : String} (h : isPlain s = true) : Phrase (runs s.toList) := by
  obtain ⟨hne, hends, -, -, -⟩ := isPlain_iff.1 h
  obtain ⟨-, hbb, hbr⟩ := isQuotable_iff.1 (isQuotable_of_isPlain h)
  have hspaced := spaced_runs hbb hbr
  have hsentence := sentence_of_isPlain h
  have hflat := flatten_runs s.toList
  generalize runs s.toList = rs at hspaced hflat ⊢
  rw [← hflat] at hne hends hsentence
  refine phrase_of_spaced hspaced ?_ hsentence
  cases hspaced with
  | nil => exact absurd rfl hne
  | word hw _ _ => exact ⟨_, rfl, hw⟩
  | gap hg _ _ =>
      -- A gap at the start would be a loose end.
      obtain ⟨hg, hrun⟩ := hg
      obtain ⟨x, g, rfl⟩ := List.exists_cons_of_ne_nil hg
      simp only [hasLooseEnd, List.flatten_cons, List.cons_append, List.head?_cons, Option.map_some,
        Option.getD_some, Bool.or_eq_false_iff] at hends
      rcases hrun with hrun | hrun
      · simp [hrun x List.mem_cons_self] at hends
      · simp [hrun x List.mem_cons_self] at hends

end Limn.Yaml.Writer
