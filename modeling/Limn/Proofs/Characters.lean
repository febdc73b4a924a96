import Limn.Outline
import Limn.Source
import Mathlib.Data.List.TakeWhile
import Mathlib.Tactic

/-! # Offsets between characters

Offsets count octets, but those that grammars report stand between characters. Cutting a text out of
a document at such offsets neither cuts a character nor replaces one: the decoder reads every
character back from its octets, whatever follows (`Bytes.piecesFrom_char`), and a window between two
characters holds the octets of those in between (`Bytes.window_ofText`). So a node whose span lies
between characters has just these characters for its text, and a heading has them for its title,
without the blanks at both ends (`Node.characters_between_offsets`).
-/

namespace Limn

namespace Bytes

/-! ## One character -/

section Octets

variable {d : Nat} (rest : Bytes)

/-- The first of two octets. -/
theorem piecesFrom_two (hlow : 2 ≤ d) (hhigh : d < 32) :
    piecesFrom .idle (UInt8.ofNat (d + 192) :: rest) = piecesFrom (.inside d 1 0x80 0xbf) rest := by
  interval_cases d <;> rfl

/-- The first of three octets. -/
theorem piecesFrom_three (h : d < 16) : piecesFrom .idle (UInt8.ofNat (d + 224) :: rest) =
    piecesFrom (.inside d 2 (if d = 0 then 0xa0 else 0x80) (if d = 13 then 0x9f else 0xbf))
      rest := by
  interval_cases d <;> rfl

/-- The first of four octets. -/
theorem piecesFrom_four (h : d < 5) : piecesFrom .idle (UInt8.ofNat (d + 240) :: rest) =
    piecesFrom (.inside d 3 (if d = 0 then 0x90 else 0x80) (if d = 4 then 0x8f else 0xbf))
      rest := by
  interval_cases d <;> rfl

variable {low high : UInt8} {value missing : Nat}

/-- An octet of six bits, in the range that is due. -/
theorem step_inside (h : d < 64) (hlow : low.toNat ≤ d + 128) (hhigh : d + 128 ≤ high.toNat) :
    step (.inside value missing low high) (UInt8.ofNat (d + 128)) =
      if missing ≤ 1 then ([some (Char.ofNat (value * 64 + d))], .idle)
      else ([], .inside (value * 64 + d) (missing - 1) 0x80 0xbf) := by
  have hoctet : (UInt8.ofNat (d + 128)).toNat = d + 128 :=
    UInt8.toNat_ofNat_of_lt' (show d + 128 < 256 by omega)
  generalize UInt8.ofNat (d + 128) = b at hoctet
  have hdue : (decide (low ≤ b) && decide (b ≤ high)) = true := by
    rw [Bool.and_eq_true, decide_eq_true_eq, decide_eq_true_eq, UInt8.le_iff_toNat_le,
      UInt8.le_iff_toNat_le, hoctet]
    exact ⟨hlow, hhigh⟩
  rw [step, if_pos hdue, hoctet, Nat.add_sub_cancel]

theorem piecesFrom_next (h : d < 64) (hlow : low.toNat ≤ d + 128) (hhigh : d + 128 ≤ high.toNat) :
    piecesFrom (.inside value (missing + 2) low high) (UInt8.ofNat (d + 128) :: rest) =
      piecesFrom (.inside (value * 64 + d) (missing + 1) 0x80 0xbf) rest := by
  rw [piecesFrom, step_inside h hlow hhigh, if_neg (by omega)]
  rfl

/-- Six bits are always in the plain range. -/
theorem plain_range (d : Nat) (h : d < 64) :
    (0x80 : UInt8).toNat ≤ d + 128 ∧ d + 128 ≤ (0xbf : UInt8).toNat := by
  constructor
  · show 128 ≤ d + 128
    omega
  · show d + 128 ≤ 191
    omega

theorem piecesFrom_last (h : d < 64) :
    piecesFrom (.inside value 1 0x80 0xbf) (UInt8.ofNat (d + 128) :: rest) =
      some (Char.ofNat (value * 64 + d)) :: piecesFrom .idle rest := by
  obtain ⟨hlow, hhigh⟩ := plain_range d h
  rw [piecesFrom, step_inside h hlow hhigh]
  rfl

end Octets

section Values

variable {v : Nat} (rest : Bytes)

theorem piecesFrom_value_two (hlow : 0x7f < v) (hhigh : v ≤ 0x7ff) :
    piecesFrom .idle (UInt8.ofNat (v / 64 % 32 + 192) :: UInt8.ofNat (v % 64 + 128) :: rest) =
      some (Char.ofNat v) :: piecesFrom .idle rest := by
  have hbits : v / 64 % 32 * 64 + v % 64 = v := by omega
  rw [piecesFrom_two _ (by omega) (by omega), piecesFrom_last _ (by omega), hbits]

/-- The range of the second octet keeps out what fits into two octets, and the surrogates. -/
theorem piecesFrom_value_three (hlow : 0x7ff < v) (hhigh : v ≤ 0xffff)
    (hvalid : v < 0xd800 ∨ 0xdfff < v) :
    piecesFrom .idle (UInt8.ofNat (v / 4096 % 16 + 224) :: UInt8.ofNat (v / 64 % 64 + 128) ::
        UInt8.ofNat (v % 64 + 128) :: rest) =
      some (Char.ofNat v) :: piecesFrom .idle rest := by
  have hbits : (v / 4096 % 16 * 64 + v / 64 % 64) * 64 + v % 64 = v := by omega
  rw [piecesFrom_three _ (by omega), piecesFrom_next _ (by omega), piecesFrom_last _ (by omega),
    hbits]
  · split
    · show 160 ≤ _
      omega
    · show 128 ≤ _
      omega
  · split
    · show _ ≤ 159
      omega
    · show _ ≤ 191
      omega

/-- The range of the second octet keeps out what fits into three octets, and what lies beyond
Unicode. -/
theorem piecesFrom_value_four (hlow : 0xffff < v) (hhigh : v < 0x110000) :
    piecesFrom .idle (UInt8.ofNat (v / 262144 % 8 + 240) :: UInt8.ofNat (v / 4096 % 64 + 128) ::
        UInt8.ofNat (v / 64 % 64 + 128) :: UInt8.ofNat (v % 64 + 128) :: rest) =
      some (Char.ofNat v) :: piecesFrom .idle rest := by
  have hbits : ((v / 262144 % 8 * 64 + v / 4096 % 64) * 64 + v / 64 % 64) * 64 + v % 64 = v := by
    omega
  obtain ⟨hfrom, hto⟩ := plain_range (v / 64 % 64) (by omega)
  rw [piecesFrom_four _ (by omega), piecesFrom_next _ (by omega),
    piecesFrom_next _ (by omega) hfrom hto, piecesFrom_last _ (by omega), hbits]
  · split
    · show 144 ≤ _
      omega
    · show 128 ≤ _
      omega
  · split
    · show _ ≤ 143
      omega
    · show _ ≤ 191
      omega

end Values

/-- **A character is read back**, whatever follows it. -/
theorem piecesFrom_char (c : Char) (rest : Bytes) :
    piecesFrom .idle (String.utf8EncodeChar c ++ rest) = some c :: piecesFrom .idle rest := by
  have hvalid : c.toNat < 0xd800 ∨ 0xdfff < c.toNat ∧ c.toNat < 0x110000 := c.valid
  have hchar : Char.ofNat c.toNat = c := Char.ofNat_toNat c
  have hvalue : c.val.toNat = c.toNat := rfl
  unfold String.utf8EncodeChar
  dsimp only
  rw [hvalue]
  generalize c.toNat = v at hvalid hchar
  subst hchar
  split_ifs with hone htwo hthree
  · simp only [List.cons_append, List.nil_append]
    interval_cases v <;> rfl
  · exact piecesFrom_value_two rest (by omega) htwo
  · exact piecesFrom_value_three rest (by omega) hthree (by omega)
  · exact piecesFrom_value_four rest (by omega) (by omega)

/-! ## Texts -/

/-- The octets of a row of characters. -/
def ofChars (cs : List Char) : Bytes :=
  cs.flatMap String.utf8EncodeChar

theorem ofChars_append (cs ds : List Char) : ofChars (cs ++ ds) = ofChars cs ++ ofChars ds :=
  List.flatMap_append

theorem pieces_ofChars (cs : List Char) : pieces (ofChars cs) = cs.map some := by
  induction cs with
  | nil => rfl
  | cons c rest ih =>
      show piecesFrom .idle (String.utf8EncodeChar c ++ ofChars rest) = _
      rw [piecesFrom_char]
      exact congrArg (some c :: ·) ih

theorem toTextLossy_ofChars (cs : List Char) : toTextLossy (ofChars cs) = String.ofList cs := by
  rw [toTextLossy, pieces_ofChars, List.map_map]
  exact congrArg String.ofList (List.map_id cs)

theorem data_toUTF8 (s : String) : s.toUTF8.data.toList = ofText s := by
  rw [String.toUTF8_eq_toByteArray, ← String.utf8Encode_toList, List.utf8Encode,
    List.data_toByteArray]
  rfl

theorem length_ofChars (cs : List Char) :
    (ofChars cs).length = (String.ofList cs).utf8ByteSize := by
  have hdata := data_toUTF8 (String.ofList cs)
  rw [ofText, String.toList_ofList] at hdata
  rw [ofChars, ← hdata]
  rfl

/-! ## Windows -/

/-- An offset inside a document is a position in it. -/
theorem position_of_le {size n : Nat} (h : n ≤ size) : position size n = n := by
  unfold position
  rw [if_neg (by omega), Int.toNat_natCast, Nat.min_eq_left h]

theorem window_append (before inner after : Bytes) :
    window (before ++ inner ++ after) before.length (before ++ inner).length = inner := by
  unfold window
  dsimp only
  rw [position_of_le (by simp only [List.length_append]; omega),
    position_of_le (by simp only [List.length_append]; omega), List.append_assoc,
    List.drop_left, List.length_append, Nat.add_sub_cancel_left, List.take_left]

/-- **A window between two characters** holds the octets of those in between. -/
theorem window_ofText (s : String) {a b : Nat} (h : a ≤ b) :
    window (ofText s) (String.ofList (s.toList.take a)).utf8ByteSize
        (String.ofList (s.toList.take b)).utf8ByteSize =
      ofChars ((s.toList.take b).drop a) := by
  have htake := List.take_append_drop a (s.toList.take b)
  rw [List.take_take, Nat.min_eq_left h] at htake
  have hbefore : ofChars (s.toList.take a) ++ ofChars ((s.toList.take b).drop a) =
      ofChars (s.toList.take b) := by
    rw [← ofChars_append, htake]
  have hwhole : ofChars (s.toList.take a) ++ ofChars ((s.toList.take b).drop a) ++
      ofChars (s.toList.drop b) = ofText s := by
    rw [hbefore, ← ofChars_append, List.take_append_drop]
    rfl
  rw [← length_ofChars, ← length_ofChars, ← hwhole, ← hbefore]
  exact window_append _ _ _

end Bytes

/-! ## Trimming -/

namespace Text

/-- What is left of a row of characters when the blank ones at both ends are taken away. -/
structure IsTrimmed (cs trimmed : List Char) : Prop where
  ends : ∃ before after, cs = before ++ trimmed ++ after ∧ (∀ c ∈ before, isBlank c = true) ∧
    ∀ c ∈ after, isBlank c = true
  first : ∀ c ∈ trimmed.head?, isBlank c = false
  last : ∀ c ∈ trimmed.getLast?, isBlank c = false

theorem not_of_head?_dropWhile {p : Char → Bool} {cs : List Char} {c : Char}
    (h : c ∈ (cs.dropWhile p).head?) : p c = false := by
  have hhead := List.head?_dropWhile_not p cs
  rw [Option.mem_def.mp h] at hhead
  exact hhead

theorem isTrimmed_trimWhile (cs : List Char) : IsTrimmed cs (trimWhile isBlank cs) := by
  set inner := cs.dropWhile isBlank with hinner
  have hcs : cs = cs.takeWhile isBlank ++ inner := (List.takeWhile_append_dropWhile).symm
  have hsplit : inner = trimWhile isBlank cs ++ (inner.reverse.takeWhile isBlank).reverse := by
    rw [trimWhile, ← hinner, ← List.reverse_append, List.takeWhile_append_dropWhile,
      List.reverse_reverse]
  constructor
  · refine ⟨cs.takeWhile isBlank, (inner.reverse.takeWhile isBlank).reverse, ?_, ?_, ?_⟩
    · rw [List.append_assoc, ← hsplit]
      exact hcs
    · intro c hc
      exact List.mem_takeWhile_imp hc
    · intro c hc
      exact List.mem_takeWhile_imp (List.mem_reverse.mp hc)
  · intro c hc
    have hhead : c ∈ inner.head? := by
      rw [hsplit, List.head?_append]
      rw [Option.mem_def.mp hc]
      rfl
    exact not_of_head?_dropWhile hhead
  · intro c hc
    rw [trimWhile, List.getLast?_reverse] at hc
    exact not_of_head?_dropWhile hc

end Text

/-! ## Nodes between characters -/

/-- **Offsets select characters.** A node without a text of its own whose span reaches from one
place between characters of the source to another has the characters in between for its text,
whether the source was given as a text or as octets; and a heading that has such a node for its
content has them for its title, without the blank ones at both ends. -/
theorem Node.characters_between_offsets (s : String) {a b : Nat} (hab : a ≤ b) {source : Source}
    (hsource : source = .text (.text s) ∨ source = .octets s.toUTF8.data.toList)
    {n : Node} (hcontent : source.bytes.map .spanOf = .ok n.content)
    (hspan : n.span = ⟨(String.ofList (s.toList.take a)).utf8ByteSize,
      (String.ofList (s.toList.take b)).utf8ByteSize⟩) :
    n.text? = some (.text (String.ofList ((s.toList.take b).drop a))) ∧
      ∀ heading marker : Node, heading.firstNamed? = some marker →
        marker.fieldChild? Outline.titleField = some n →
          ∃ title, Outline.title? heading = some (.text (String.ofList title)) ∧
            Text.IsTrimmed ((s.toList.take b).drop a) title := by
  have hbytes : source.bytes = .ok (Bytes.ofText s) := by
    rcases hsource with rfl | rfl
    · rfl
    · rw [Bytes.data_toUTF8]
      rfl
  have hoctets : n.content = .spanOf (Bytes.ofText s) := by
    rw [hbytes] at hcontent
    exact (Except.ok.inj hcontent).symm
  have htext : n.text? = some (.text (String.ofList ((s.toList.take b).drop a))) := by
    unfold text?
    rw [hoctets, hspan]
    dsimp only
    rw [Bytes.window_ofText s hab, Bytes.toTextLossy_ofChars]
  refine ⟨htext, ?_⟩
  intro heading marker hmarker hn
  refine ⟨Text.trimWhile Text.isBlank ((s.toList.take b).drop a), ?_, Text.isTrimmed_trimWhile _⟩
  unfold Outline.title?
  rw [hmarker]
  dsimp only [Option.bind_eq_bind, Option.bind_some]
  rw [hn]
  dsimp only [Option.bind_some]
  rw [htext]
  dsimp only [Option.bind_some]
  unfold Wording.trim Text.trim
  dsimp only
  rw [String.toList_ofList]
  rfl

/-- Characters of one to four octets on both sides of the ends, and blanks around a title. -/
theorem Node.title_of_wide_characters :
    let n : Node :=
      { type := "inline", span := ⟨3, 14⟩, field := .text Outline.titleField
        content := .spanOf (Bytes.ofText "#é é€😀 €") }
    let heading : Node :=
      { type := "section", span := ⟨0, 17⟩
        children := [{ type := "atx_heading", span := ⟨0, 17⟩, children := [n] }] }
    n.text? = some (.text " é€😀 ") ∧ Outline.title? heading = some (.text "é€😀") ∧
      Text.IsTrimmed " é€😀 ".toList "é€😀".toList := by
  intro n heading
  have hcontent : (Source.text (.text "#é é€😀 €")).bytes.map .spanOf = .ok n.content := by rfl
  have hread : Outline.title? heading = some (.text "é€😀") := by decide +kernel
  obtain ⟨htext, hheading⟩ := characters_between_offsets "#é é€😀 €" (a := 2) (b := 7) (by decide)
    (Or.inl rfl) hcontent (by rfl)
  obtain ⟨title, htitle, htrimmed⟩ := hheading heading _ (by rfl) (by rfl)
  have hsame : String.ofList title = "é€😀" :=
    Wording.text.inj (Option.some.inj (htitle.symm.trans hread))
  have hchars : title = "é€😀".toList := by
    rw [← hsame, String.toList_ofList]
  exact ⟨htext, hread, hchars ▸ htrimmed⟩

end Limn
