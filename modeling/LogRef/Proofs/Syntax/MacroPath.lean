import LogRef.Proofs.Syntax.GrownInvocations
import LogRef.Proofs.Text.Encoding

/-!
# Macro paths

A macro path as it is written, with what stands between its words. As the name of a node it is spelled out without its
blanks. Among the tokens of a bracketed tree it is heard backwards from its last name, as far as names and colons go.
The two are the same for a plain path only.
-/
namespace LogRef

/-- A word of a path: some characters, none of them blank. -/
structure PathWord where
  text : List Char
  nonempty : text ≠ []
  visible : ∀ c ∈ text, Text.isBlank c = false

/-- What may stand between a word and the colons next to it. -/
inductive PathFiller
  | blank (c : Char) (h : Text.isBlank c = true)
  | comment (text : List Char) (h : ∃ c ∈ text, Text.isBlank c = false)

namespace PathFiller

def text : PathFiller → List Char
  | blank c _ => [c]
  | comment text _ => text

/-- Whether it is one of the blanks that fall away between two tokens. -/
def isSpace : PathFiller → Bool
  | blank c _ => c.toNat < 0x80 && isSpaceByte c.toNat.toUInt8
  | comment _ _ => false

/-- Whether it is no token. -/
def isQuiet : PathFiller → Bool
  | f@(blank _ _) => f.isSpace
  | comment _ _ => true

end PathFiller

/-- A word with the colons behind it. The words `crate`, `self` and `super` are keywords. -/
structure PathStep where
  word : PathWord
  isKeyword : Bool
  before : List PathFiller
  after : List PathFiller

/-- A path to a macro: the colons it begins with and what is behind them, if any, its steps from the last one on, and
the name of the macro. -/
structure MacroPath where
  root : Option (List PathFiller)
  steps : List PathStep
  name : PathWord

/-- What a path is made of in a bracketed tree: single bytes outside of any node, and nodes. -/
inductive PathItem
  | byte (b : UInt8)
  | node (kind : Node.Kind) (text : Bytes)

namespace PathItem

def bytes : PathItem → Bytes
  | byte b => [b]
  | node _ text => text

/-- The token of an item that begins at `p`; a blank and a comment are none. -/
def tokens (p : Int) : PathItem → List Token
  | byte b => if isSpaceByte b then [] else [⟨if isPunctByte b then .punct else .atom, p, p + 1, [b]⟩]
  | node .comment _ => []
  | node .identifier text => [⟨.word, p, p + text.length, text⟩]
  | node _ text => [⟨.atom, p, p + text.length, text⟩]

def colons : List PathItem := [.byte (asciiByte ':'), .byte (asciiByte ':')]

end PathItem

def PathFiller.items : PathFiller → List PathItem
  | blank c _ => (Utf8.encodeChar c).map .byte
  | comment text _ => [.node .comment (Utf8.encode text)]

def PathStep.items (s : PathStep) : List PathItem :=
  .node (if s.isKeyword then .other else .identifier) (Utf8.encode s.word.text) ::
    (s.before.flatMap PathFiller.items ++ (PathItem.colons ++ s.after.flatMap PathFiller.items))

def PathStep.text (s : PathStep) : List Char :=
  s.word.text ++ (s.before.flatMap PathFiller.text ++ ("::".toList ++ s.after.flatMap PathFiller.text))

/-- The items before the name of the macro, and their text. -/
def leadItems (root : Option (List PathFiller)) : List PathStep → List PathItem
  | [] => (root.map fun after => PathItem.colons ++ after.flatMap PathFiller.items).getD []
  | s :: rest => leadItems root rest ++ s.items

def leadText (root : Option (List PathFiller)) : List PathStep → List Char
  | [] => (root.map fun after => "::".toList ++ after.flatMap PathFiller.text).getD []
  | s :: rest => leadText root rest ++ s.text

/-- The bytes of some items, and their tokens from a position on. -/
def itemBytes (items : List PathItem) : Bytes := items.flatMap PathItem.bytes

def itemTokens : (p : Int) → List PathItem → List Token
  | _, [] => []
  | p, i :: rest => i.tokens p ++ itemTokens (p + i.bytes.length) rest

/-- Whether a step is heard as part of a path. -/
def PathStep.isHeard (s : PathStep) : Bool :=
  !s.isKeyword && s.before.all PathFiller.isQuiet && s.after.all PathFiller.isQuiet

/-- What is heard before the name of the macro. -/
def heardLead : List PathStep → List Char
  | [] => []
  | s :: rest => if s.isHeard then heardLead rest ++ (s.word.text ++ "::".toList) else []

/-- Whether nothing but blanks of the common kind stands between a name and the colons behind it. -/
def PathStep.isPlain (s : PathStep) : Bool :=
  !s.isKeyword && s.before.all PathFiller.isSpace && s.after.all PathFiller.isSpace

namespace MacroPath

def items (path : MacroPath) : List PathItem :=
  leadItems path.root path.steps ++ [.node .identifier (Utf8.encode path.name.text)]

def text (path : MacroPath) : List Char := leadText path.root path.steps ++ path.name.text

/-- The name of a call that is a node of its own. -/
def spelled (path : MacroPath) : List Char := Text.squeeze path.text

/-- The name of a call among the tokens of a tree. -/
def heard (path : MacroPath) : List Char := heardLead path.steps ++ path.name.text

/-- Whether a path is made of names only, with blanks of the common kind between them and their colons. -/
def isPlain (path : MacroPath) : Bool := path.root.isNone && path.steps.all PathStep.isPlain

end MacroPath

theorem squeeze_append (a b : List Char) : Text.squeeze (a ++ b) = Text.squeeze a ++ Text.squeeze b :=
  List.filter_append ..

theorem PathWord.squeeze_text (w : PathWord) : Text.squeeze w.text = w.text :=
  List.filter_eq_self.mpr fun c hc => by rw [w.visible c hc]; rfl

namespace PathFiller

variable {f : PathFiller} {fs : List PathFiller}

theorem isQuiet_of_isSpace (h : f.isSpace = true) : f.isQuiet = true := by
  cases f with
  | blank c hc => exact h
  | comment text hc => rfl

/-- Of what is no token only a blank is not spelled out. -/
theorem squeeze_text_of_isQuiet (h : f.isQuiet = true) : Text.squeeze f.text = [] ↔ f.isSpace = true := by
  cases f with
  | blank c hc => simp [text, Text.squeeze, hc, show isSpace (blank c hc) = true from h]
  | comment text hc =>
    obtain ⟨c, hmem, hvisible⟩ := hc
    simp only [PathFiller.text, isSpace, Bool.false_eq_true, iff_false]
    exact List.ne_nil_of_mem (List.mem_filter.mpr ⟨hmem, by rw [hvisible]; rfl⟩)

theorem squeeze_all_of_isQuiet (h : fs.all isQuiet = true) :
    Text.squeeze (fs.flatMap text) = [] ↔ fs.all isSpace = true := by
  induction fs with
  | nil => exact ⟨fun _ => rfl, fun _ => rfl⟩
  | cons f fs ih =>
    rw [List.all_cons, Bool.and_eq_true] at h
    rw [List.flatMap_cons, squeeze_append, List.append_eq_nil_iff, squeeze_text_of_isQuiet h.1, ih h.2, List.all_cons,
      Bool.and_eq_true]

theorem all_isQuiet_of_isSpace (h : fs.all isSpace = true) : fs.all isQuiet = true :=
  List.all_eq_true.mpr fun f hf => isQuiet_of_isSpace (List.all_eq_true.mp h f hf)

end PathFiller

theorem PathStep.isHeard_of_isPlain {s : PathStep} (h : s.isPlain = true) : s.isHeard = true := by
  simp only [PathStep.isPlain, PathStep.isHeard, Bool.and_eq_true] at h ⊢
  exact ⟨⟨h.1.1, PathFiller.all_isQuiet_of_isSpace h.1.2⟩, PathFiller.all_isQuiet_of_isSpace h.2⟩

theorem PathStep.isPlain_of_isHeard {s : PathStep} (h : s.isHeard = true) :
    s.isPlain = true ↔ Text.squeeze (s.before.flatMap PathFiller.text) = [] ∧
      Text.squeeze (s.after.flatMap PathFiller.text) = [] := by
  simp only [PathStep.isPlain, PathStep.isHeard, Bool.and_eq_true] at h ⊢
  rw [PathFiller.squeeze_all_of_isQuiet h.1.2, PathFiller.squeeze_all_of_isQuiet h.2]
  simp only [h.1.1, true_and]

theorem squeeze_colons : Text.squeeze "::".toList = "::".toList := by decide

/-- What is spelled out of a step. -/
theorem PathStep.squeeze_text (s : PathStep) : Text.squeeze s.text =
    s.word.text ++ (Text.squeeze (s.before.flatMap PathFiller.text) ++
      ("::".toList ++ Text.squeeze (s.after.flatMap PathFiller.text))) := by
  rw [PathStep.text, squeeze_append, squeeze_append, squeeze_append, s.word.squeeze_text, squeeze_colons]

section

variable {root : Option (List PathFiller)} {steps : List PathStep}

theorem length_heardLead_le : (heardLead steps).length ≤ (Text.squeeze (leadText root steps)).length := by
  induction steps with
  | nil => exact Nat.zero_le _
  | cons s rest ih =>
    rw [heardLead, leadText, squeeze_append, s.squeeze_text]
    split
    · simp only [List.length_append]
      omega
    · exact Nat.zero_le _

/-- A lead is heard as it is spelled out if it is plain and does not begin with colons. -/
theorem squeeze_lead_eq_iff : Text.squeeze (leadText root steps) = heardLead steps ↔
    (root.isNone && steps.all PathStep.isPlain) = true := by
  induction steps with
  | nil =>
    cases root with
    | none => exact ⟨fun _ => rfl, fun _ => rfl⟩
    | some after =>
      simp only [leadText, Option.map_some, Option.getD_some, squeeze_append, squeeze_colons, heardLead]
      simp
  | cons s rest ih =>
    rw [leadText, heardLead, squeeze_append, s.squeeze_text, List.all_cons, Bool.and_left_comm, Bool.and_eq_true, ← ih]
    have hle := @length_heardLead_le root rest
    by_cases hs : s.isHeard = true
    · rw [if_pos hs, PathStep.isPlain_of_isHeard hs]
      constructor
      · intro h
        -- what is spelled out is at least as long in every part
        have hlen := congrArg List.length h
        simp only [List.length_append] at hlen
        have hbefore : Text.squeeze (s.before.flatMap PathFiller.text) = [] := List.length_eq_zero_iff.mp (by omega)
        have hafter : Text.squeeze (s.after.flatMap PathFiller.text) = [] := List.length_eq_zero_iff.mp (by omega)
        rw [hbefore, hafter, List.nil_append, List.append_nil] at h
        exact ⟨⟨hbefore, hafter⟩, List.append_cancel_right h⟩
      · rintro ⟨⟨hbefore, hafter⟩, h⟩
        rw [hbefore, hafter, h, List.nil_append, List.append_nil]
    · rw [if_neg hs]
      constructor
      · intro h
        have hword := s.word.nonempty
        simp_all
      · intro h
        exact absurd (PathStep.isHeard_of_isPlain h.1) hs

theorem MacroPath.spelled_eq_heard_iff (path : MacroPath) : path.spelled = path.heard ↔ path.isPlain = true := by
  rw [spelled, text, heard, squeeze_append, path.name.squeeze_text, List.append_left_inj, squeeze_lead_eq_iff]
  rfl

end

section Bytes

theorem itemBytes_append (a b : List PathItem) : itemBytes (a ++ b) = itemBytes a ++ itemBytes b :=
  List.flatMap_append

theorem itemBytes_cons (i : PathItem) (items : List PathItem) : itemBytes (i :: items) = i.bytes ++ itemBytes items :=
  List.flatMap_cons

theorem itemBytes_bytes (bytes : Bytes) : itemBytes (bytes.map .byte) = bytes := by
  rw [itemBytes, List.flatMap_map]
  exact List.flatMap_singleton' bytes

theorem itemBytes_fillers (fs : List PathFiller) :
    itemBytes (fs.flatMap PathFiller.items) = Utf8.encode (fs.flatMap PathFiller.text) := by
  induction fs with
  | nil => rfl
  | cons f fs ih =>
    rw [List.flatMap_cons, List.flatMap_cons, itemBytes_append, Utf8.encode_append, ih]
    congr 1
    cases f with
    | blank c h =>
      rw [PathFiller.items, PathFiller.text, itemBytes_bytes, Utf8.encode_cons]
      exact (List.append_nil _).symm
    | comment text h =>
      rw [PathFiller.items, PathFiller.text, itemBytes_cons]
      exact List.append_nil _

theorem itemBytes_colons : itemBytes PathItem.colons = Utf8.encode "::".toList := by decide

theorem PathStep.itemBytes_items (s : PathStep) : itemBytes s.items = Utf8.encode s.text := by
  rw [PathStep.items, PathStep.text, itemBytes_cons, itemBytes_append, itemBytes_append, itemBytes_fillers,
    itemBytes_fillers, itemBytes_colons, Utf8.encode_append, Utf8.encode_append, Utf8.encode_append]
  rfl

theorem itemBytes_lead (root : Option (List PathFiller)) (steps : List PathStep) :
    itemBytes (leadItems root steps) = Utf8.encode (leadText root steps) := by
  induction steps with
  | nil =>
    cases root with
    | none => rfl
    | some after =>
      simp only [leadItems, leadText, Option.map_some, Option.getD_some]
      rw [itemBytes_append, Utf8.encode_append, itemBytes_colons, itemBytes_fillers]
  | cons s rest ih => rw [leadItems, leadText, itemBytes_append, Utf8.encode_append, ih, s.itemBytes_items]

/-- What the parser makes of a path is, byte for byte, the path as it is written. -/
theorem MacroPath.itemBytes_items (path : MacroPath) : itemBytes path.items = Utf8.encode path.text := by
  rw [items, text, itemBytes_append, Utf8.encode_append, itemBytes_lead, itemBytes_cons]
  exact congrArg _ (List.append_nil _)

end Bytes

section Tokens

theorem itemTokens_append (p : Int) (a b : List PathItem) :
    itemTokens p (a ++ b) = itemTokens p a ++ itemTokens (p + (itemBytes a).length) b := by
  induction a generalizing p with
  | nil => simp [itemTokens, itemBytes]
  | cons i a ih =>
    rw [List.cons_append, itemTokens, itemTokens, ih, itemBytes_cons, List.length_append, List.append_assoc,
      Int.natCast_add, Int.add_assoc]

theorem mem_itemTokens {t : Token} {p : Int} {items : List PathItem} (h : t ∈ itemTokens p items) :
    ∃ i ∈ items, ∃ q, t ∈ i.tokens q := by
  induction items generalizing p with
  | nil => cases h
  | cons i items ih =>
    rcases List.mem_append.mp h with h | h
    · exact ⟨i, List.mem_cons_self, p, h⟩
    · obtain ⟨j, hj, hq⟩ := ih h
      exact ⟨j, List.mem_cons_of_mem i hj, hq⟩

theorem itemTokens_eq_nil {p : Int} {items : List PathItem} :
    itemTokens p items = [] ↔ ∀ i ∈ items, i.tokens 0 = [] := by
  induction items generalizing p with
  | nil => exact ⟨fun _ _ h => (List.not_mem_nil h).elim, fun _ => rfl⟩
  | cons i items ih =>
    have hplace : i.tokens p = [] ↔ i.tokens 0 = [] := by
      unfold PathItem.tokens
      split <;> simp
    rw [itemTokens, List.append_eq_nil_iff, ih, List.forall_mem_cons, hplace]

/-- A byte of a blank is neither in a word nor punctuation, and it is a common blank if the character is one. -/
theorem byte_of_blank {c : Char} {b : UInt8} (hc : Text.isBlank c = true) (hb : b ∈ Utf8.encodeChar c) :
    isWordByte b = false ∧ isPunctByte b = false ∧
      isSpaceByte b = (decide (c.toNat < 0x80) && isSpaceByte c.toNat.toUInt8) := by
  have hall : ∀ n < 256, 0x80 ≤ n ∨ Text.inRanges Text.blankRanges n = true → isWordByte n.toUInt8 = false ∧
      isPunctByte n.toUInt8 = false ∧ (0x80 ≤ n → isSpaceByte n.toUInt8 = false) := by decide +kernel
  have hn : b.toNat.toUInt8 = b := Utf8.toUInt8_eq rfl
  have hbyte := hall b.toNat b.toNat_lt
  rw [hn] at hbyte
  by_cases hascii : b.toNat < 0x80
  · obtain ⟨_, hcb⟩ := Utf8.encodeChar_of_mem_ascii hb hascii
    obtain ⟨hword, hpunct, _⟩ := hbyte (.inr (hcb ▸ hc))
    rw [hcb, decide_eq_true hascii, hn]
    exact ⟨hword, hpunct, rfl⟩
  · obtain ⟨hword, hpunct, hspace⟩ := hbyte (.inl (Nat.not_lt.mp hascii))
    refine ⟨hword, hpunct, ?_⟩
    rw [hspace (Nat.not_lt.mp hascii), decide_eq_false fun hlt => ?_, Bool.false_and]
    rw [Utf8.encodeChar_ascii hlt, List.mem_singleton] at hb
    rw [hb, Utf8.toNat_toUInt8 (by omega)] at hascii
    exact hascii hlt

namespace PathFiller

variable {f : PathFiller} {fs : List PathFiller} {t : Token} {p : Int}

/-- What stands between words is read as nothing or as tokens that are neither words nor colons. -/
theorem kind_of_mem_tokens (ht : t ∈ itemTokens p (fs.flatMap items)) : t.kind = .atom := by
  obtain ⟨i, hi, q, hq⟩ := mem_itemTokens ht
  obtain ⟨f, _, hi⟩ := List.mem_flatMap.mp hi
  cases f with
  | blank c h =>
    obtain ⟨b, hb, rfl⟩ := List.mem_map.mp hi
    rw [PathItem.tokens, (byte_of_blank h hb).2.1] at hq
    split at hq
    · cases hq
    · exact List.mem_singleton.mp hq ▸ rfl
  | comment text h =>
    obtain rfl := List.mem_singleton.mp hi
    cases hq

theorem tokens_eq_nil : itemTokens p (fs.flatMap items) = [] ↔ fs.all isQuiet = true := by
  rw [itemTokens_eq_nil, List.all_eq_true, List.forall_mem_flatMap]
  refine forall₂_congr fun f _ => ?_
  cases f with
  | blank c h =>
    have hbyte {b : UInt8} (hb : b ∈ Utf8.encodeChar c) :
        (PathItem.byte b).tokens 0 = [] ↔ isQuiet (blank c h) = true := by
      rw [PathItem.tokens, (byte_of_blank h hb).2.2]
      change _ ↔ (decide (c.toNat < 0x80) && isSpaceByte c.toNat.toUInt8) = true
      split <;> simp_all
    rw [items, List.forall_mem_map]
    obtain ⟨b, hb⟩ := List.exists_mem_of_ne_nil _ (Utf8.encodeChar_ne_nil c)
    exact ⟨fun hall => (hbyte hb).mp (hall b hb), fun hq b hb => (hbyte hb).mpr hq⟩
  | comment text h => simp [items, isQuiet, PathItem.tokens]

end PathFiller

/-- A path does not go on before its root: there is no word before leading colons, and no word with two colons before a
path without them. The tokens are given nearest first. -/
def EndsPath (root : Option (List PathFiller)) (before : List Token) : Prop :=
  match root, before with
  | some _, w :: _ => w.kind ≠ .word
  | none, t :: u :: w :: _ => t.isPunct ':' = true → u.isPunct ':' = true → w.kind ≠ .word
  | _, _ => True

instance : (root : Option (List PathFiller)) → (before : List Token) → Decidable (EndsPath root before)
  | some _, w :: _ => inferInstanceAs (Decidable (w.kind ≠ .word))
  | none, t :: u :: w :: _ =>
    inferInstanceAs (Decidable (t.isPunct ':' = true → u.isPunct ':' = true → w.kind ≠ .word))
  | some _, [] | none, [] | none, [_] | none, [_, _] => .isTrue trivial

section

variable {t u w : Token} {ts before : List Token}

theorem pathBefore_of_not_colon (h : t.isPunct ':' = false) (ts : List Token) : pathBefore (t :: ts) = [] := by
  match ts with
  | [] | [_] => rfl
  | u :: w :: rest => simp [pathBefore, h]

theorem pathBefore_of_not_word (h : w.kind ≠ .word) (ts : List Token) : pathBefore (t :: u :: w :: ts) = [] := by
  simp [pathBefore, h]

theorem EndsPath.pathBefore_eq (h : EndsPath none before) : pathBefore before = [] := by
  match before, h with
  | [], _ | [_], _ | [_, _], _ => rfl
  | t :: u :: w :: rest, h =>
    rw [pathBefore]
    split
    · next hpath =>
      simp only [Bool.and_eq_true, decide_eq_true_eq] at hpath
      exact absurd hpath.2 (h hpath.1.1 hpath.1.2)
    · rfl

theorem EndsPath.pathBefore_colons {after : List PathFiller} (h : EndsPath (some after) before) :
    pathBefore (t :: u :: before) = [] := by
  cases before with
  | nil => rfl
  | cons w ts => exact pathBefore_of_not_word h ts

/-- Behind something that is a token of its own no path goes on. -/
theorem pathBefore_of_atom (hatom : ∀ t ∈ ts, t.kind = .atom) (hne : ts ≠ []) (before : List Token) :
    pathBefore (ts.reverse ++ before) = [] := by
  cases hts : ts.reverse with
  | nil => exact absurd (List.reverse_eq_nil_iff.mp hts) hne
  | cons t rest =>
    refine pathBefore_of_not_colon ?_ _
    rw [Token.isPunct, hatom t (List.mem_reverse.mp (hts ▸ List.mem_cons_self))]
    rfl

end

/-- What some tokens say. -/
def spokenText (tokens : List Token) : List Char := tokens.flatMap fun t => Utf8.decodeLossy t.text

theorem decodeLossy_encode (text : List Char) : Utf8.decodeLossy (Utf8.encode text) = text := by
  have h := Utf8.decodeLossy_encode_append text []
  rwa [List.append_nil, show Utf8.decodeLossy [] = [] from rfl, List.append_nil] at h

theorem tokens_colons (p : Int) : ∃ a b : Token, itemTokens p PathItem.colons = [a, b] ∧ a.isPunct ':' = true ∧
    b.isPunct ':' = true ∧ spokenText [a, b] = "::".toList :=
  ⟨⟨.punct, p, p + 1, [asciiByte ':']⟩, ⟨.punct, p + 1, p + 1 + 1, [asciiByte ':']⟩, rfl, rfl, rfl, rfl⟩

/-- A step that is heard goes before what is heard of the rest. -/
theorem pathBefore_step (s : PathStep) (p : Int) (before : List Token) :
    spokenText (pathBefore ((itemTokens p s.items).reverse ++ before)).reverse =
      if s.isHeard then spokenText (pathBefore before).reverse ++ (s.word.text ++ "::".toList) else [] := by
  rw [PathStep.items, itemTokens, itemTokens_append, itemTokens_append]
  generalize p + _ = q
  generalize q + _ = r
  obtain ⟨a, b, hcolons, ha, hb, hspoken⟩ := tokens_colons r
  generalize hword : PathItem.tokens p _ = word
  rw [hcolons]
  generalize r + _ = r'
  have hback : (word ++ (itemTokens q (s.before.flatMap PathFiller.items) ++
      ([a, b] ++ itemTokens r' (s.after.flatMap PathFiller.items)))).reverse ++ before =
      (itemTokens r' (s.after.flatMap PathFiller.items)).reverse ++ (b :: a ::
        ((itemTokens q (s.before.flatMap PathFiller.items)).reverse ++ (word.reverse ++ before))) := by simp
  rw [hback, PathStep.isHeard]
  by_cases hafter : s.after.all PathFiller.isQuiet = true
  · rw [PathFiller.tokens_eq_nil.mpr hafter, hafter, List.reverse_nil, List.nil_append, Bool.and_true]
    by_cases hbefore : s.before.all PathFiller.isQuiet = true
    · rw [PathFiller.tokens_eq_nil.mpr hbefore, hbefore, List.reverse_nil, List.nil_append, Bool.and_true]
      subst hword
      cases hkey : s.isKeyword with
      | true =>
        simp only [if_true, PathItem.tokens, List.reverse_singleton, List.singleton_append]
        rw [pathBefore_of_not_word (by simp)]
        rfl
      | false =>
        simp only [Bool.false_eq_true, if_false, PathItem.tokens, List.reverse_singleton, List.singleton_append,
          pathBefore, ha, hb, decide_true, Bool.and_self, if_true, Bool.not_false]
        simp only [spokenText, List.flatMap_cons, List.flatMap_nil, List.append_nil] at hspoken
        simp only [spokenText, List.reverse_cons, List.flatMap_append, List.flatMap_cons, List.flatMap_nil,
          List.append_nil, decodeLossy_encode, List.append_assoc, hspoken]
    · -- the colons are not behind a word
      rw [Bool.eq_false_iff.mpr hbefore, Bool.and_false, if_neg Bool.false_ne_true]
      have hne := fun h => hbefore (PathFiller.tokens_eq_nil (p := q).mp h)
      cases hrev : (itemTokens q (s.before.flatMap PathFiller.items)).reverse with
      | nil => exact absurd (List.reverse_eq_nil_iff.mp hrev) hne
      | cons t ts =>
        have ht : t.kind = .atom :=
          PathFiller.kind_of_mem_tokens (List.mem_reverse.mp (hrev ▸ List.mem_cons_self))
        rw [List.cons_append, pathBefore_of_not_word (by rw [ht]; decide)]
        rfl
  · rw [Bool.eq_false_iff.mpr hafter, Bool.and_false, if_neg Bool.false_ne_true]
    rw [pathBefore_of_atom (fun t ht => PathFiller.kind_of_mem_tokens ht)
      fun hnil => hafter (PathFiller.tokens_eq_nil.mp hnil)]
    rfl

theorem spoken_lead (root : Option (List PathFiller)) (steps : List PathStep) (p : Int) {before : List Token}
    (h : EndsPath root before) :
    spokenText (pathBefore ((itemTokens p (leadItems root steps)).reverse ++ before)).reverse = heardLead steps := by
  induction steps with
  | nil =>
    have hnone : pathBefore ((itemTokens p (leadItems root [])).reverse ++ before) = [] := by
      cases root with
      | none => exact h.pathBefore_eq
      | some after =>
        simp only [leadItems, Option.map_some, Option.getD_some]
        rw [itemTokens_append, List.reverse_append, List.append_assoc]
        by_cases hquiet : after.all PathFiller.isQuiet = true
        · rw [PathFiller.tokens_eq_nil.mpr hquiet]
          obtain ⟨a, b, hcolons, _⟩ := tokens_colons p
          rw [hcolons]
          exact h.pathBefore_colons
        · exact pathBefore_of_atom (fun t ht => PathFiller.kind_of_mem_tokens ht)
            (fun hnil => hquiet (PathFiller.tokens_eq_nil.mp hnil)) _
    rw [hnone]
    rfl
  | cons s rest ih =>
    rw [leadItems, itemTokens_append, List.reverse_append, List.append_assoc, pathBefore_step, ih, heardLead]

end Tokens

end LogRef
