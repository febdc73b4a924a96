import Limn.Yaml.Cursor
import Mathlib.Tactic

/-! # Positions in a YAML text

A position *holds* the characters ahead of it when its index is the number of characters behind it.
Everything that reads moves from a position that holds `ds ++ cs` to one that holds `cs`, so a
bound taken from the position is always more than the characters to come (`Holds.budget`).

Columns matter only on the way to the next token: they count characters that do not end a line.
-/

namespace Limn.Yaml

/-! ## Characters -/

/-- A character that takes one column of its line. -/
def isFlat (c : Char) : Bool :=
  !isBreak c && c != '\ufeff'

theorem isFlat_space : isFlat ' ' = true := by decide

/-- A small letter. -/
def IsLetter (x : Char) : Prop :=
  'a' ≤ x ∧ x ≤ 'z'

theorem IsLetter.range {x : Char} (h : IsLetter x) : 0x61 ≤ x.toNat ∧ x.toNat ≤ 0x7a := h

theorem IsLetter.ne {x d : Char} (h : IsLetter x) (hd : ¬IsLetter d) : x ≠ d := by
  rintro rfl
  exact hd h

instance (x : Char) : Decidable (IsLetter x) :=
  inferInstanceAs (Decidable (_ ∧ _))

/-- The characters of a row are checked one by one: left to itself, `decide` may go through all
characters that there are. -/
theorem forall_mem_of_all {p : Char → Prop} [DecidablePred p] {cs : List Char}
    (h : (cs.all fun x => decide (p x)) = true) : ∀ x ∈ cs, p x :=
  fun x hx => of_decide_eq_true (List.all_eq_true.1 h x hx)

namespace Cursor

/-! ## Holding characters -/

/-- These characters are ahead, and the index counts those behind. -/
def Holds (c : Cursor) (cs : List Char) : Prop :=
  c.rest = cs ∧ c.index + cs.length = c.size

theorem holds_ofList (cs : List Char) : (ofList cs).Holds cs := by
  simp [Holds, ofList]

section Holds

variable {c : Cursor} {x : Char} {cs ds : List Char}

theorem Holds.budget (h : c.Holds cs) : c.budget = cs.length + 1 := by
  have := h.2
  rw [Cursor.budget]
  omega

theorem Holds.peek (h : c.Holds (x :: cs)) : c.peek = x := by
  rw [Cursor.peek, h.1, List.headD_cons]

theorem Holds.peek_nil (h : c.Holds []) : c.peek = endMark := by
  rw [Cursor.peek, h.1, List.headD_nil]

theorem Holds.peekAt_one (h : c.Holds (x :: cs)) : c.peekAt 1 = cs.headD endMark := by
  rw [Cursor.peekAt, h.1]
  cases cs <;> rfl

theorem Holds.next (h : c.Holds (x :: cs)) : c.next.Holds cs := by
  obtain ⟨hrest, hindex⟩ := h
  rw [List.length_cons] at hindex
  unfold Cursor.next
  rw [hrest]
  simp only
  split
  · exact ⟨rfl, by simp only; omega⟩
  · split
    · exact ⟨rfl, by simp only; omega⟩
    · exact ⟨rfl, by simp only; omega⟩

theorem Holds.skip : ∀ {ds : List Char} {c : Cursor}, c.Holds (ds ++ cs) →
    (c.skip ds.length).Holds cs
  | [], _, h => h
  | _ :: ds, _, h => @Holds.skip ds _ (Holds.next h)

theorem Holds.takeWhile {p : Char → Bool} (h : c.Holds (ds ++ cs)) (hds : ∀ d ∈ ds, p d = true)
    (hcs : ∀ x ∈ cs.head?, p x = false) : c.takeWhile p = (ds, c.skip ds.length) := by
  have htake : (ds ++ cs).takeWhile p = ds := by
    rw [List.takeWhile_append_of_pos hds]
    cases cs with
    | nil => simp
    | cons x cs =>
        rw [List.takeWhile_cons_of_neg (by simp [hcs x rfl]), List.append_nil]
  rw [Cursor.takeWhile, h.1, htake]

theorem Holds.takeWhile_nil {p : Char → Bool} (h : c.Holds cs)
    (hcs : ∀ x ∈ cs.head?, p x = false) : c.takeWhile p = ([], c) :=
  @Holds.takeWhile c cs [] p h (by simp) hcs

/-! ## Columns and lines -/

theorem Holds.next_flat (h : c.Holds (x :: cs)) (hx : isFlat x = true) :
    c.next.column = c.column + 1 ∧ c.next.line = c.line ∧ c.next.index = c.index + 1 := by
  simp only [isFlat, isBreak, Bool.and_eq_true, Bool.not_eq_true', Bool.or_eq_false_iff,
    bne_iff_ne, beq_eq_false_iff_ne] at hx
  obtain ⟨⟨⟨⟨⟨hr, hn⟩, hnel⟩, hls⟩, hps⟩, hbom⟩ := hx
  unfold Cursor.next
  rw [h.1]
  simp [hr, hn, hnel, hls, hps, hbom]

theorem skip_flat : ∀ {ds : List Char} {c : Cursor}, c.Holds (ds ++ cs) →
    (∀ d ∈ ds, isFlat d = true) →
      (c.skip ds.length).column = c.column + ds.length ∧ (c.skip ds.length).line = c.line ∧
        (c.skip ds.length).index = c.index + ds.length
  | [], _, _, _ => by simp [Cursor.skip]
  | d :: ds, c, h, hds => by
      obtain ⟨hcol, hline, hindex⟩ := Holds.next_flat h (hds d List.mem_cons_self)
      obtain ⟨hcol', hline', hindex'⟩ :=
        skip_flat h.next (fun e he => hds e (List.mem_cons_of_mem _ he))
      rw [List.length_cons, Cursor.skip, hcol', hline', hindex', hcol, hline, hindex]
      omega

theorem Holds.next_break (h : c.Holds (x :: cs))
    (hx : x = '\n' ∨ x = '\u0085' ∨ x = '\u2028' ∨ x = '\u2029') : c.next.column = 0 := by
  unfold Cursor.next
  rw [h.1]
  rcases hx with rfl | rfl | rfl | rfl <;> simp

/-! ## Breaks -/

theorem Holds.lineBreak_of_not (h : c.Holds cs) (hcs : ∀ x ∈ cs.head?, isBreak x = false) :
    c.lineBreak = ([], c) := by
  unfold Cursor.lineBreak
  rw [h.1]
  cases cs with
  | nil => rfl
  | cons x cs =>
      have hx := hcs x rfl
      simp only [isBreak, Bool.or_eq_false_iff, beq_eq_false_iff_ne] at hx
      split <;> simp_all

/-- The break that a line ends with, as it is read. -/
def normalBreak (x : Char) : Char :=
  if x == '\u0085' then '\n' else x

theorem Holds.lineBreak (h : c.Holds (x :: cs))
    (hx : x = '\n' ∨ x = '\u0085' ∨ x = '\u2028' ∨ x = '\u2029') :
    c.lineBreak = ([normalBreak x], c.next) := by
  unfold Cursor.lineBreak
  rw [h.1]
  rcases hx with rfl | rfl | rfl | rfl <;> rfl

/-! ## The way to the next token -/

theorem Holds.skipComment {k : Nat} (h : c.Holds (List.replicate k ' ' ++ cs))
    (hcs : ∀ x ∈ cs.head?, x ≠ ' ' ∧ x ≠ '#') : c.skipComment = c.skip k := by
  have htake := h.takeWhile (p := (· == ' ')) (by simp) (fun x hx => by simp [(hcs x hx).1])
  rw [List.length_replicate] at htake
  have hskip := h.skip
  rw [List.length_replicate] at hskip
  have hpeek : ((c.skip k).peek == '#') = false := by
    cases cs with
    | nil => simp [hskip.peek_nil, endMark]
    | cons x cs => simp [hskip.peek, (hcs x rfl).2]
  rw [Cursor.skipComment, Cursor.skipWhile, htake]
  simp [hpeek]

end Holds

end Cursor

end Limn.Yaml
