import Eliminant.Text.Token
import Mathlib.Data.List.Chain
import Mathlib.Data.List.TakeWhile

/-!
# Cutting what has been written

A text that is written token by token, no word next to another, is cut into these tokens again
(`Lexeme.ofText_spells`). Words are numbers and names: they end where a character follows that cannot
belong to them, and no other token is more than one character.

`Spells ts s` is closed under the ways in which texts are put together: `Spells.word`, `Spells.cons` and
`Spells.append`, and `Spells.snoc`, `Spells.join` and `Spells.brackets` for the common cases. Of a text that
is written in any other way, cutting still yields valid tokens only (`Lexeme.ofText_valid`), and it yields what
the text consists of: tokens and blanks, and words as long as they can be (`Lexeme.ofText_iff`).
-/

namespace Eliminant

/-! ## 1. Tokens that cutting yields -/

/-- Whether a text is a name: a letter, and then letters and digits. -/
def isName (x : String) : Bool :=
  match x.toList with
  | [] => false
  | c :: cs => isLetter c && cs.all isNameChar

theorem isName_iff {x : String} : isName x = true ↔
    ∃ c cs, x.toList = c :: cs ∧ isLetter c = true ∧ ∀ d ∈ cs, isNameChar d = true := by
  unfold isName
  cases x.toList with
  | nil => simp
  | cons c cs => simp

section Characters

variable {c : Char}

theorem isDigit_iff : c.isDigit = true ↔ 48 ≤ c.toNat ∧ c.toNat ≤ 57 := by
  simp [Char.isDigit, UInt32.le_iff_toNat_le]

theorem isAlpha_iff : c.isAlpha = true ↔
    (65 ≤ c.toNat ∧ c.toNat ≤ 90) ∨ (97 ≤ c.toNat ∧ c.toNat ≤ 122) := by
  show (decide (65 ≤ c.val ∧ c.val ≤ 90) || (decide (97 ≤ c.val) && decide (c.val ≤ 122))) = true ↔ _
  simp [UInt32.le_iff_toNat_le]

theorem isNameChar_of_isDigit (h : c.isDigit = true) : isNameChar c = true := by
  have bounds := isDigit_iff.mp h
  unfold isNameChar
  rw [if_pos (by omega), Char.isAlphanum, h, Bool.or_true]

theorem isDigit_of_isLetter (h : isLetter c = true) : c.isDigit = false := by
  refine Bool.eq_false_iff.mpr fun digit => ?_
  have bounds := isDigit_iff.mp digit
  unfold isLetter at h
  rw [if_pos (by omega), isAlpha_iff] at h
  omega

theorem isNameChar_of_isBlank (h : isBlank c = true) : isNameChar c = false := by
  have member : c = ' ' ∨ c = '\t' ∨ c = '\n' ∨ c = '\r' := by simpa [isBlank, or_assoc] using h
  obtain rfl | rfl | rfl | rfl := member <;> decide

theorem isBlank_of_isNameChar (h : isNameChar c = true) : isBlank c = false :=
  Bool.eq_false_iff.mpr fun blank => Bool.false_ne_true ((isNameChar_of_isBlank blank).symm.trans h)

/-- Names of ASCII letters and digits are names. -/
theorem isName_of_ascii {x : String} {cs : List Char} (chars : x.toList = c :: cs)
    (letter : c.isAlpha = true) (more : ∀ d ∈ cs, d.isAlphanum = true) : isName x = true := by
  have ascii (d : Char) (h : d.isAlphanum = true) : d.toNat < 128 := by
    rw [Char.isAlphanum, Bool.or_eq_true, isAlpha_iff, isDigit_iff] at h
    omega
  refine isName_iff.mpr ⟨c, cs, chars, ?_, fun d hd => ?_⟩
  · unfold isLetter
    rwa [if_pos (ascii c (by rw [Char.isAlphanum, letter, Bool.true_or]))]
  · unfold isNameChar
    rw [if_pos (ascii d (more d hd)), more d hd]

end Characters

namespace Token

/-- Whether a token goes on for as long as it can. -/
def isWord : Token → Bool
  | number _ | name _ => true
  | sign _ | opening | closing | comma => false

/-- A token that cutting can yield. -/
def Valid : Token → Prop
  | number ds => ∃ c cs, ds.toList = c :: cs ∧ c.isDigit = true ∧ ∀ d ∈ cs, d.isDigit = true
  | name x => isName x = true
  | sign c => isSign c = true
  | opening | closing | comma => True

/-- The characters of a token. -/
def chars (t : Token) : List Char := t.text.toList

variable {t u : Token}

/-- **A token that is no word** is a single character, which belongs to no word. -/
theorem chars_of_not_isWord (valid : t.Valid) (mark : t.isWord = false) :
    ∃ c, t.chars = [c] ∧ isNameChar c = false ∧ isBlank c = false ∧ ofChar? c = some t := by
  cases t with
  | number _ | name _ => cases mark
  | opening => exact ⟨'(', rfl, by decide, by decide, rfl⟩
  | closing => exact ⟨')', rfl, by decide, by decide, rfl⟩
  | comma => exact ⟨',', rfl, by decide, by decide, rfl⟩
  | sign c =>
    have member : c = '^' ∨ c = '+' ∨ c = '*' ∨ c = '-' ∨ c = '/' ∨ c = '_' ∨ c = '\'' := by
      simpa [Valid, isSign] using valid
    refine ⟨c, String.toList_singleton c, ?_⟩
    obtain rfl | rfl | rfl | rfl | rfl | rfl | rfl := member <;>
      exact ⟨by decide, by decide, rfl⟩

/-- The token that a character is by itself can be cut. -/
theorem valid_of_ofChar {c : Char} (h : ofChar? c = some t) : t.Valid := by
  unfold ofChar? at h
  split at h
  · cases h
    trivial
  · split at h
    · cases h
      trivial
    · split at h
      · cases h
        trivial
      · split at h
        · rename_i isSign
          cases h
          exact isSign
        · cases h

end Token

/-! ## 2. Texts -/

open Token (Valid)

/-- Two tokens that are not both words. -/
def Apart (t u : Token) : Prop := t.isWord = true → u.isWord = false

/-- **The text `s` is written token by token**, no word next to another. -/
structure Spells (ts : List Token) (s : String) : Prop where
  chars : s.toList = ts.flatMap Token.chars
  valid : ∀ t ∈ ts, t.Valid
  apart : ts.IsChain Apart

namespace Spells

variable {t : Token} {ts us : List Token} {s r : String}

theorem nil : Spells [] "" := ⟨rfl, nofun, .nil⟩

/-- A token by itself. -/
theorem word (valid : t.Valid) : Spells [t] t.text :=
  ⟨by simp [Token.chars], by simpa using valid, .singleton t⟩

/-- Two texts, of which the second does not start with a word. -/
theorem append (hs : Spells ts s) (hr : Spells us r) (mark : ∀ u ∈ us.head?, u.isWord = false) :
    Spells (ts ++ us) (s ++ r) := by
  refine ⟨?_, List.forall_mem_append.mpr ⟨hs.valid, hr.valid⟩, ?_⟩
  · rw [String.toList_append, List.flatMap_append, hs.chars, hr.chars]
  · exact List.isChain_append.mpr ⟨hs.apart, hr.apart, fun _ _ u hu _ => mark u hu⟩

/-- A token that is no word, in front of a text. -/
theorem cons (t : Token) (valid : t.Valid) (mark : t.isWord = false) (hs : Spells ts s) :
    Spells (t :: ts) (t.text ++ s) := by
  refine ⟨?_, List.forall_mem_cons.mpr ⟨valid, hs.valid⟩, ?_⟩
  · rw [String.toList_append, List.flatMap_cons, hs.chars, Token.chars]
  · exact List.isChain_cons.mpr ⟨fun u _ word => absurd word (by rw [mark]; decide), hs.apart⟩

/-- Two texts with a token between them that is no word. -/
theorem join (hs : Spells ts s) (t : Token) (valid : t.Valid) (mark : t.isWord = false)
    (hr : Spells us r) :
    Spells (ts ++ t :: us) (s ++ t.text ++ r) := by
  rw [String.append_assoc]
  exact hs.append (cons t valid mark hr) (by simpa using mark)

/-- A text and a token behind it that is no word. -/
theorem snoc (hs : Spells ts s) (t : Token) (valid : t.Valid) (mark : t.isWord = false) :
    Spells (ts ++ [t]) (s ++ t.text) :=
  hs.append (word valid) (by simpa using mark)

/-- A text in brackets. -/
theorem brackets (hs : Spells ts s) :
    Spells (.opening :: (ts ++ [.closing])) ("(" ++ s ++ ")") := by
  rw [String.append_assoc]
  exact cons .opening trivial rfl (hs.snoc .closing trivial rfl)

/-- A name in front of a text in brackets. -/
theorem call {f : String} (named : isName f = true) (hs : Spells ts s) :
    Spells (.name f :: .opening :: (ts ++ [.closing])) (f ++ "(" ++ s ++ ")") := by
  have name : Spells [.name f] f := .word named
  have all := name.append hs.brackets (by simp [Token.isWord])
  rw [← String.append_assoc, ← String.append_assoc] at all
  exact all

end Spells

/-! ## 3. Cutting -/

namespace Lexeme

variable {t : Token} {ts : List Token} {s : String} {c : Char} {cs ds : List Char} {p : Position}

/-- The characters of an earlier token are skipped. -/
theorem scan_skip (cs ds : List Char) (p : Position) :
    scan cs.length p (cs ++ ds) = scan 0 p ds := by
  induction cs with
  | nil => rfl
  | cons c cs ih => exact ih

/-- What follows a word starts with no character that could belong to it. -/
theorem takeWhile_chars {f : Char → Bool} (only : ∀ c, f c = true → isNameChar c = true)
    (valid : ∀ t ∈ ts, t.Valid) (mark : ∀ t ∈ ts.head?, t.isWord = false) :
    (ts.flatMap Token.chars).takeWhile f = [] := by
  cases ts with
  | nil => rfl
  | cons t ts =>
    obtain ⟨c, chars, other, -⟩ :=
      Token.chars_of_not_isWord (valid t List.mem_cons_self) (mark t rfl)
    rw [List.flatMap_cons, chars]
    refine List.takeWhile_cons_of_neg fun h => ?_
    rw [only c h] at other
    cases other

/-- A word is cut off as a whole. -/
theorem takeWhile_word {f : Char → Bool} (all : ∀ c ∈ cs, f c = true) (stop : ds.takeWhile f = []) :
    (cs ++ ds).takeWhile f = cs := by
  rw [List.takeWhile_append_of_pos all, stop, List.append_nil]

theorem scan_mark (blank : isBlank c = false) (other : isNameChar c = false)
    (char : Token.ofChar? c = some t) (p : Position) (ds : List Char) :
    scan 0 p (c :: ds) = scan.cons ⟨t, p⟩ (scan 0 (p.right 1) ds) := by
  have digit : c.isDigit = false := Bool.eq_false_iff.mpr fun h =>
    Bool.false_ne_true (other.symm.trans (isNameChar_of_isDigit h))
  have letter : isLetter c = false := Bool.eq_false_iff.mpr fun h =>
    Bool.false_ne_true (other.symm.trans (isNameChar_of_isLetter h))
  simp only [scan, blank, digit, letter, char, Bool.false_eq_true, if_false]

theorem scan_number {x : String} (chars : x.toList = c :: cs) (digit : c.isDigit = true)
    (all : ∀ d ∈ cs, d.isDigit = true) (stop : ds.takeWhile Char.isDigit = []) (p : Position) :
    scan 0 p (x.toList ++ ds) =
      scan.cons ⟨.number x, p⟩ (scan 0 (p.right (cs.length + 1)) ds) := by
  have blank := isBlank_of_isNameChar (isNameChar_of_isDigit digit)
  rw [chars]
  simp only [List.cons_append, scan, blank, digit, Bool.false_eq_true, if_false, if_true,
    takeWhile_word all stop, scan_skip]
  rw [← chars, String.ofList_toList]

theorem scan_name {x : String} (chars : x.toList = c :: cs) (letter : isLetter c = true)
    (all : ∀ d ∈ cs, isNameChar d = true) (stop : ds.takeWhile isNameChar = []) (p : Position) :
    scan 0 p (x.toList ++ ds) =
      scan.cons ⟨.name x, p⟩ (scan 0 (p.right (cs.length + 1)) ds) := by
  have blank := isBlank_of_isNameChar (isNameChar_of_isLetter letter)
  have digit := isDigit_of_isLetter letter
  rw [chars]
  simp only [List.cons_append, scan, blank, digit, letter, Bool.false_eq_true, if_false, if_true,
    takeWhile_word all stop, scan_skip]
  rw [← chars, String.ofList_toList]

/-- **One token is cut off** where the text goes on with other tokens. -/
theorem scan_token (valid : t.Valid) (later : ∀ u ∈ ts, u.Valid)
    (next : ∀ u ∈ ts.head?, Apart t u) (p : Position) :
    ∃ q, scan 0 p (t.chars ++ ts.flatMap Token.chars) =
      scan.cons ⟨t, p⟩ (scan 0 q (ts.flatMap Token.chars)) := by
  cases word : t.isWord with
  | false =>
    obtain ⟨c, chars, other, blank, char⟩ := Token.chars_of_not_isWord valid word
    rw [chars]
    exact ⟨_, scan_mark blank other char p _⟩
  | true =>
    have mark (u : Token) (hu : u ∈ ts.head?) : u.isWord = false := next u hu word
    cases t with
    | number x =>
      obtain ⟨c, cs, chars, digit, all⟩ := valid
      exact ⟨_, scan_number chars digit all
        (takeWhile_chars (fun _ => isNameChar_of_isDigit) later mark) p⟩
    | name x =>
      obtain ⟨c, cs, chars, letter, all⟩ := isName_iff.mp valid
      exact ⟨_, scan_name chars letter all (takeWhile_chars (fun _ => id) later mark) p⟩
    | sign _ | opening | closing | comma => cases word

/-- **Cutting yields the tokens** that a text is written with. -/
theorem scan_spells : ∀ {ts : List Token}, (∀ t ∈ ts, t.Valid) → ts.IsChain Apart → ∀ p,
    ∃ ls last, scan 0 p (ts.flatMap Token.chars) = .ok (ls, last) ∧ ls.map (·.token) = ts
  | [], _, _, p => ⟨[], p, rfl, rfl⟩
  | t :: ts, valid, apart, p => by
    obtain ⟨first, later⟩ := List.forall_mem_cons.mp valid
    obtain ⟨next, apart⟩ := List.isChain_cons.mp apart
    obtain ⟨q, cut⟩ := scan_token first later next p
    obtain ⟨ls, last, run, tokens⟩ := scan_spells later apart q
    rw [List.flatMap_cons, cut, run]
    exact ⟨⟨t, p⟩ :: ls, last, rfl, congrArg (t :: ·) tokens⟩

/-- **A text that is written token by token is cut into these tokens.** -/
theorem ofText_spells (h : Spells ts s) :
    ∃ ls last, ofText s = .ok (ls, last) ∧ ls.map (·.token) = ts := by
  unfold ofText
  rw [h.chars]
  exact scan_spells h.valid h.apart _

/-! ## 4. Whatever is cut -/

theorem cons_eq_ok {l : Lexeme} {ls : List Lexeme} {last : Position}
    {r : Except StrayCharacter (List Lexeme × Position)} (h : scan.cons l r = .ok (ls, last)) :
    ∃ rest, r = .ok (rest, last) ∧ ls = l :: rest := by
  cases r with
  | error e => cases h
  | ok r =>
    cases h
    exact ⟨r.1, rfl, rfl⟩

theorem scan_valid : ∀ (cs : List Char) (skip : ℕ) (p : Position) {ls : List Lexeme} {last : Position},
    scan skip p cs = .ok (ls, last) → ∀ l ∈ ls, l.token.Valid
  | [], _, _, ls, last, h => by
    simp only [scan, Except.ok.injEq, Prod.mk.injEq] at h
    rw [← h.1]
    nofun
  | c :: cs, k + 1, p, _, _, h => scan_valid cs k p h
  | c :: cs, 0, p, ls, last, h => by
    unfold scan at h
    split at h
    · exact scan_valid cs 0 _ h
    · split at h
      · rename_i digit
        obtain ⟨rest, run, rfl⟩ := cons_eq_ok h
        refine List.forall_mem_cons.mpr ⟨⟨c, _, String.toList_ofList, digit, fun d hd => ?_⟩,
          scan_valid cs _ _ run⟩
        exact List.mem_takeWhile_imp hd
      · split at h
        · rename_i letter
          obtain ⟨rest, run, rfl⟩ := cons_eq_ok h
          refine List.forall_mem_cons.mpr ⟨isName_iff.mpr ⟨c, _, String.toList_ofList, letter,
            fun d hd => ?_⟩, scan_valid cs _ _ run⟩
          exact List.mem_takeWhile_imp hd
        · split at h
          · rename_i t char
            obtain ⟨rest, run, rfl⟩ := cons_eq_ok h
            exact List.forall_mem_cons.mpr ⟨Token.valid_of_ofChar char, scan_valid cs 0 _ run⟩
          · cases h

/-- **Whatever is cut is a valid token.** -/
theorem ofText_valid {ls : List Lexeme} {last : Position} (h : ofText s = .ok (ls, last)) :
    ∀ l ∈ ls, l.token.Valid := scan_valid _ _ _ h

/-! ## 5. What can be cut -/

/-- **The characters are tokens and blanks**, one after the other; numbers and names are as long as they can
    be. -/
inductive Cuts : List Char → List Token → Prop
  | nil : Cuts [] []
  | blank {c : Char} {cs : List Char} {ts : List Token} :
    isBlank c = true → Cuts cs ts → Cuts (c :: cs) ts
  | number {x : String} {c : Char} {cs ds : List Char} {ts : List Token} :
    x.toList = c :: cs → c.isDigit = true → (∀ d ∈ cs, d.isDigit = true) →
      (∀ d ∈ ds.head?, d.isDigit = false) → Cuts ds ts → Cuts (x.toList ++ ds) (.number x :: ts)
  | name {x : String} {c : Char} {cs ds : List Char} {ts : List Token} :
    x.toList = c :: cs → isLetter c = true → (∀ d ∈ cs, isNameChar d = true) →
      (∀ d ∈ ds.head?, isNameChar d = false) → Cuts ds ts → Cuts (x.toList ++ ds) (.name x :: ts)
  | mark {c : Char} {cs : List Char} {t : Token} {ts : List Token} :
    Token.ofChar? c = some t → Cuts cs ts → Cuts (c :: cs) (t :: ts)

/-- A character that is a token by itself belongs to no word and is no blank. -/
theorem not_word_of_ofChar (h : Token.ofChar? c = some t) : isBlank c = false ∧ isNameChar c = false := by
  unfold Token.ofChar? at h
  split at h
  · rename_i same
    exact same ▸ by decide
  split at h
  · rename_i same
    exact same ▸ by decide
  split at h
  · rename_i same
    exact same ▸ by decide
  split at h
  · rename_i sign
    obtain ⟨d, chars, other, blank, -⟩ :=
      Token.chars_of_not_isWord (t := .sign c) sign rfl
    have same : [c] = [d] := (String.toList_singleton c).symm.trans chars
    cases same
    exact ⟨blank, other⟩
  · cases h

theorem takeWhile_stop {f : Char → Bool} (h : ∀ d ∈ ds.head?, f d = false) : ds.takeWhile f = [] := by
  cases ds with
  | nil => rfl
  | cons d ds => exact List.takeWhile_cons_of_neg (by simp [h d rfl])

/-- **What can be cut is cut**, from any place on. -/
theorem Cuts.scan_eq (h : Cuts cs ts) :
    ∀ p, ∃ ls last, scan 0 p cs = .ok (ls, last) ∧ ls.map (·.token) = ts := by
  induction h with
  | nil => exact fun p => ⟨[], p, rfl, rfl⟩
  | @blank c _ _ blank _ ih =>
    intro p
    obtain ⟨ls, last, run, tokens⟩ := ih (p.behindBlank c)
    exact ⟨ls, last, by simp only [scan, blank, if_true, run], tokens⟩
  | @number x c cs _ _ chars digit all stop _ ih =>
    intro p
    obtain ⟨ls, last, run, tokens⟩ := ih (p.right (cs.length + 1))
    refine ⟨⟨.number x, p⟩ :: ls, last, ?_, congrArg (Token.number x :: ·) tokens⟩
    rw [scan_number chars digit all (takeWhile_stop stop) p, run]
    rfl
  | @name x c cs _ _ chars letter all stop _ ih =>
    intro p
    obtain ⟨ls, last, run, tokens⟩ := ih (p.right (cs.length + 1))
    refine ⟨⟨.name x, p⟩ :: ls, last, ?_, congrArg (Token.name x :: ·) tokens⟩
    rw [scan_name chars letter all (takeWhile_stop stop) p, run]
    rfl
  | @mark c _ t _ char _ ih =>
    intro p
    obtain ⟨blank, other⟩ := not_word_of_ofChar char
    obtain ⟨ls, last, run, tokens⟩ := ih (p.right 1)
    refine ⟨⟨t, p⟩ :: ls, last, ?_, congrArg (t :: ·) tokens⟩
    rw [scan_mark blank other char, run]
    rfl

/-- The character behind a longest word. -/
theorem head?_dropWhile {f : Char → Bool} : ∀ d ∈ (cs.dropWhile f).head?, f d = false := by
  intro d hd
  have stop := List.head?_dropWhile_not f cs
  rw [hd] at stop
  exact Bool.eq_false_iff.mpr (by simpa using stop)

/-- **What is cut can be cut.** -/
theorem cuts_of_scan {p : Position} {ls : List Lexeme} {last : Position} (cs : List Char)
    (h : scan 0 p cs = .ok (ls, last)) : Cuts cs (ls.map (·.token)) := by
  match cs with
  | [] =>
    cases h
    exact .nil
  | c :: cs =>
    -- a word, and what is left behind it
    have word (f : Char → Bool) : c :: cs = (String.ofList (c :: cs.takeWhile f)).toList ++ cs.dropWhile f := by
      rw [String.toList_ofList, List.cons_append, List.takeWhile_append_dropWhile]
    have skip (f : Char → Bool) (q : Position) :
        scan (cs.takeWhile f).length q cs = scan 0 q (cs.dropWhile f) := by
      have := scan_skip (cs.takeWhile f) (cs.dropWhile f) q
      rwa [List.takeWhile_append_dropWhile] at this
    unfold scan at h
    split at h
    · rename_i blank
      exact .blank blank (cuts_of_scan cs h)
    · split at h
      · rename_i digit
        obtain ⟨rest, run, rfl⟩ := cons_eq_ok h
        rw [skip] at run
        have later := cuts_of_scan _ run
        rw [word Char.isDigit]
        exact .number String.toList_ofList digit (fun d => List.mem_takeWhile_imp) head?_dropWhile later
      · split at h
        · rename_i letter
          obtain ⟨rest, run, rfl⟩ := cons_eq_ok h
          rw [skip] at run
          have later := cuts_of_scan _ run
          rw [word isNameChar]
          exact .name String.toList_ofList letter (fun d => List.mem_takeWhile_imp) head?_dropWhile later
        · split at h
          · rename_i t char
            obtain ⟨rest, run, rfl⟩ := cons_eq_ok h
            exact .mark char (cuts_of_scan cs run)
          · cases h
termination_by cs.length
decreasing_by
  all_goals
    have shorter (f : Char → Bool) := (List.dropWhile_sublist f (l := cs)).length_le
    simp only [List.length_cons]
    first
    | omega
    | exact Nat.lt_succ_of_le (shorter _)

/-- **A text is cut into the tokens of which it consists.** -/
theorem ofText_iff : (∃ ls last, ofText s = .ok (ls, last) ∧ ls.map (·.token) = ts) ↔ Cuts s.toList ts := by
  constructor
  · rintro ⟨ls, last, run, rfl⟩
    exact cuts_of_scan _ run
  · exact fun h => h.scan_eq _

end Lexeme

end Eliminant
