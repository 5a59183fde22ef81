import LogRef.Proofs.Results
import LogRef.Yaml.Document

/-!
# Problems of texts

What can be wrong with a text before it is a graph of nodes. Nearly all of it makes the text no document; only a number
in a directive that has too many digits, and an escape behind the last character, are faults of their own. Reading the
nodes adds nothing: its problems are those of the tokens, or the tokens make no document.
-/
namespace LogRef.Yaml

variable {α β : Type}

/-! ## Tokens -/

/-- The problems that a text can have while its tokens are read. -/
inductive IsScanProblem : Problem → Prop
  | malformed : IsScanProblem .malformed
  /-- A number of a directive has too many digits. -/
  | digits {count : Nat} (h : digitLimit < count) : IsScanProblem (.fault (.tooManyDigits ⟨count⟩))
  /-- An escape in quotes stands for no character. -/
  | escape : IsScanProblem (.fault (.badValue "chr() arg not in range(0x110000)"))

/-- Work on a text whose problems are those of tokens. -/
abbrev Scans (x : Except Problem α) : Prop := FailsOnly IsScanProblem x

theorem Scans.malformed : Scans (.error .malformed : Except Problem α) := .error .malformed

theorem scans_codedChar (n : Nat) (text : List Char) : Scans (codedChar n text) := by
  unfold codedChar
  split
  · split
    · exact Scans.malformed
    · split
      · exact .error .escape
      · exact .ok _
  · exact Scans.malformed

theorem scans_quotedBreaks (fuel : Nat) (text : List Char) : Scans (quotedBreaks fuel text) := by
  induction fuel generalizing text with
  | zero => exact Scans.malformed
  | succ fuel ih =>
    unfold quotedBreaks
    split
    · exact Scans.malformed
    · split
      · exact .ok _
      · split
        · exact .bind (ih _) fun _ => .pure _
        · exact .ok _

theorem scans_escape (text : List Char) : Scans (escape text) := by
  unfold escape
  split
  · exact Scans.malformed
  · split
    · exact .ok _
    · exact scans_codedChar _ _
    · split
      · exact scans_quotedBreaks _ _
      · exact Scans.malformed

theorem scans_quotedFrom (isDouble : Bool) (fuel : Nat) (text : List Char) :
    Scans (quotedFrom isDouble fuel text) := by
  induction fuel generalizing text with
  | zero => exact Scans.malformed
  | succ fuel ih =>
    have hput (piece rest : List Char) :
        Scans (quotedFrom isDouble fuel rest >>= fun p => pure (piece ++ p.1, p.2)) :=
      .bind (ih rest) fun _ => .pure _
    unfold quotedFrom
    dsimp only
    split
    · exact Scans.malformed
    · split
      · exact .bind (scans_quotedBreaks _ _) fun _ => hput _ _
      · split
        · exact hput _ _
        · split
          · exact .bind (scans_escape _) fun _ => hput _ _
          · split
            · exact .ok _
            · split
              · split
                · exact hput _ _
                · exact .ok _
              · exact hput _ _

theorem scans_quotedScalar (isDouble : Bool) (c : Cursor) : Scans (quotedScalar isDouble c) :=
  .bind (scans_quotedFrom _ _ _) fun _ => .pure _

theorem scans_indentDigit (text : List Char) : Scans (indentDigit text) := by
  unfold indentDigit
  split
  · split
    · exact Scans.malformed
    · split <;> exact .ok _
  · exact .ok _

theorem scans_blockHeader (text : List Char) : Scans (blockHeader text) := by
  unfold blockHeader
  split
  · refine .bind (scans_indentDigit _) fun _ => ?_
    split <;> exact .pure _
  · refine .bind (scans_indentDigit _) fun _ => ?_
    split
    · split <;> exact .pure _
    · exact .pure _

theorem scans_restOfLine (c : Cursor) : Scans (restOfLine c) := by
  unfold restOfLine
  dsimp only
  split
  · exact .ok _
  · exact Scans.malformed

theorem scans_blockScalar (isFolded : Bool) (outer : Int) (c : Cursor) : Scans (blockScalar isFolded outer c) := by
  unfold blockScalar
  refine .bind (scans_blockHeader _) ?_
  rintro ⟨chomping, digit, n⟩
  exact .ite (.throw_bind IsScanProblem.malformed) (.bind (scans_restOfLine _) fun _ => .pure _)

theorem scans_tagEscapes (text : List Char) : Scans (tagEscapes text) := by
  fun_induction tagEscapes text with
  | case1 a b rest n hn ih => exact .bind ih fun _ => .pure _
  | case2 => exact Scans.malformed
  | case3 => exact Scans.malformed
  | case4 => exact .ok _

theorem scans_tagTextFrom (fuel : Nat) (text : List Char) : Scans (tagTextFrom fuel text) := by
  induction fuel generalizing text with
  | zero => exact Scans.malformed
  | succ fuel ih =>
    unfold tagTextFrom
    dsimp only
    split
    · refine .bind (scans_tagEscapes _) fun _ => ?_
      split
      · exact .bind (ih _) fun _ => .pure _
      · exact Scans.malformed
    · exact .pure _

theorem scans_tagText (text : List Char) : Scans (tagText text) := by
  unfold tagText
  split
  · rename_i e he
    exact .error (scans_tagTextFrom _ _ e he)
  · exact Scans.malformed
  · exact .ok _

theorem scans_tagHandle (text : List Char) : Scans (tagHandle text) := by
  unfold tagHandle
  split
  · split
    · exact .ok _
    · dsimp only
      split
      · exact .ok _
      · exact Scans.malformed
  · exact Scans.malformed

theorem scans_tagToken (text : List Char) : Scans (tagToken text) := by
  unfold tagToken
  extract_lets finish
  have hfinish (found : Token × List Char) : Scans (finish found) := by
    dsimp only [finish]
    split
    · exact .pure _
    · exact Scans.malformed
  split
  · refine .bind (scans_tagText _) ?_
    rintro ⟨suffix, rest⟩
    dsimp only
    split
    · exact hfinish (_, _)
    · exact Scans.malformed
  · split
    · exact hfinish (_, _)
    · split
      · exact .bind (scans_tagHandle _) fun _ => .bind (scans_tagText _) fun _ => hfinish (_, _)
      · exact .bind (scans_tagText _) fun _ => hfinish (_, _)

theorem scans_anchorName (text : List Char) : Scans (anchorName text) := by
  unfold anchorName
  dsimp only
  split
  · exact Scans.malformed
  · exact .ok _

theorem scans_someDigits (text : List Char) : Scans (someDigits text) := by
  unfold someDigits
  dsimp only
  split
  · exact Scans.malformed
  · split
    · exact .error (.digits ‹_›)
    · exact .ok _

theorem scans_versionDirective (text : List Char) : Scans (versionDirective text) := by
  unfold versionDirective
  refine .bind (scans_someDigits _) ?_
  rintro ⟨major, rest⟩
  dsimp only
  split
  · refine .bind (scans_someDigits _) ?_
    rintro ⟨minor, rest⟩
    dsimp only
    split
    · exact .pure _
    · exact Scans.malformed
  · exact Scans.malformed

theorem scans_handleDirective (text : List Char) : Scans (handleDirective text) := by
  unfold handleDirective
  refine .bind (scans_tagHandle _) ?_
  rintro ⟨handle, rest⟩
  dsimp only
  split
  · exact .throw_bind IsScanProblem.malformed
  · refine .bind (scans_tagText _) ?_
    rintro ⟨expansion, rest⟩
    dsimp only
    split
    · exact .pure _
    · exact Scans.malformed

theorem scans_directiveOf (text : List Char) : Scans (directiveOf text) := by
  unfold directiveOf
  dsimp only
  split
  · exact Scans.malformed
  · split
    · exact scans_versionDirective _
    · split
      · exact scans_handleDirective _
      · exact .ok _

/-! ## Layout -/

namespace Layout

variable (s : Layout)

theorem scans_dropStale : Scans s.dropStale := by
  unfold dropStale
  split
  · exact Scans.malformed
  · exact .ok _

theorem scans_dropKey : Scans s.dropKey := by
  unfold dropKey
  split
  · exact Scans.malformed
  · exact .ok _

theorem scans_noteKey : Scans s.noteKey := by
  unfold noteKey
  split
  · exact .bind s.scans_dropKey fun _ => .pure _
  · exact .pure _

theorem scans_beginBlock (t : Token) : Scans (s.beginBlock t) := by
  unfold beginBlock
  split
  · exact .ok _
  · split
    · exact Scans.malformed
    · exact .ok _

theorem scans_endBlocks : Scans s.endBlocks := .bind (scans_dropKey _) fun _ => .pure _

theorem scans_readDirective : Scans s.readDirective :=
  .bind s.scans_endBlocks fun _ => .bind (scans_directiveOf _) fun _ => .bind (scans_restOfLine _) fun _ => .pure _

theorem scans_readMarker (t : Token) : Scans (s.readMarker t) := .bind s.scans_endBlocks fun _ => .pure _

theorem scans_openFlow (t : Token) : Scans (s.openFlow t) := .bind s.scans_noteKey fun _ => .pure _

theorem scans_closeFlow (t : Token) : Scans (s.closeFlow t) := by
  unfold closeFlow
  split
  · exact .throw_bind IsScanProblem.malformed
  · exact .bind s.scans_dropKey fun _ => .pure _

theorem scans_readFlowEntry : Scans s.readFlowEntry := .bind s.scans_dropKey fun _ => .pure _

theorem scans_readBlockEntry : Scans s.readBlockEntry :=
  .bind (s.scans_beginBlock _) fun _ => .bind (scans_dropKey _) fun _ => .pure _

theorem scans_readKey : Scans s.readKey :=
  .bind (s.scans_beginBlock _) fun _ => .bind (scans_dropKey _) fun _ => .pure _

theorem scans_readValue : Scans s.readValue := by
  unfold readValue
  split
  · exact .pure _
  · exact .bind (s.scans_beginBlock _) fun _ => .bind (scans_dropKey _) fun _ => .pure _

theorem scans_readNode {read : List Char → Except Problem (Token × List Char)} (h : ∀ text, Scans (read text)) :
    Scans (s.readNode read) :=
  .bind s.scans_noteKey fun _ => .bind (h _) fun _ => .pure _

theorem scans_readBlockScalar (isFolded : Bool) : Scans (s.readBlockScalar isFolded) :=
  .bind s.scans_dropKey fun _ => .bind (scans_blockScalar _ _ _) fun _ => .pure _

theorem scans_readQuoted (isDouble : Bool) : Scans (s.readQuoted isDouble) :=
  .bind s.scans_noteKey fun _ => .bind (scans_quotedScalar _ _) fun _ => .pure _

theorem scans_readPlain : Scans s.readPlain := .bind s.scans_noteKey fun _ => .pure _

theorem scans_readToken (c : Char) : Scans (s.readToken c) := by
  have hname (make : String → Token) (text : List Char) :
      Scans (anchorName (text.drop 1) >>= fun p => pure (make p.1, p.2)) :=
    .bind (scans_anchorName _) fun _ => .pure _
  exact .ite s.scans_readDirective <|
    .ite (s.scans_readMarker _) <|
    .ite (s.scans_openFlow _) <|
    .ite (s.scans_openFlow _) <|
    .ite (s.scans_closeFlow _) <|
    .ite (s.scans_closeFlow _) <|
    .ite s.scans_readFlowEntry <|
    .ite s.scans_readBlockEntry <|
    .ite s.scans_readKey <|
    .ite s.scans_readValue <|
    .ite (s.scans_readNode (hname .alias)) <|
    .ite (s.scans_readNode (hname .anchor)) <|
    .ite (s.scans_readNode scans_tagToken) <|
    .ite (s.scans_readBlockScalar _) <|
    .ite (s.scans_readBlockScalar _) <|
    .ite (s.scans_readQuoted _) <|
    .ite (s.scans_readQuoted _) <|
    .ite s.scans_readPlain Scans.malformed

theorem scans_readNext : Scans s.readNext := by
  refine .bind (scans_dropStale _) fun s => ?_
  dsimp only
  split
  · exact .bind (scans_endBlocks _) fun _ => .pure _
  · exact .bind (scans_readToken _ _) fun _ => .pure _

/-- Reading tokens ends, if not at the end of the text, with a problem of tokens. -/
theorem problem_readAll {fuel : Nat} {p : Problem} (h : (s.readAll fuel).problem = some p) : IsScanProblem p := by
  induction fuel generalizing s with
  | zero =>
    cases h
    exact .malformed
  | succ fuel ih =>
    rw [readAll] at h
    split at h
    · exact ih _ h
    · cases h
    · rename_i q hq
      cases h
      exact s.scans_readNext p hq

end Layout

theorem problem_tokensOf {text : List Char} {p : Problem} (h : (tokensOf text).problem = some p) :
    IsScanProblem p := by
  unfold tokensOf at h
  split at h
  · cases h
    exact .malformed
  · exact Layout.problem_readAll _ h

/-! ## Nodes -/

namespace Graph

/-- Work that reads nodes and brings no problems of its own: it fails where the tokens end with a problem, or because
they make no document. -/
structure Reads (x : Reader α) : Prop where
  fails : ∀ r p, x r = .error p → p = .malformed ∨ r.problem = some p
  keeps : ∀ r a r', x r = .ok (a, r') → r'.problem = r.problem

namespace Reads

theorem pure (a : α) : Reads (Pure.pure a) where
  fails r p h := by cases h
  keeps r b r' h := by cases h; rfl

theorem malformed : Reads (throw .malformed : Reader α) where
  fails r p h := by cases h; exact .inl rfl
  keeps r b r' h := by cases h

theorem get : Reads (MonadState.get : Reader Reading) where
  fails r p h := by cases h
  keeps r b r' h := by cases h; rfl

theorem modifyGet {f : Reading → α × Reading} (hf : ∀ r, (f r).2.problem = r.problem) :
    Reads (MonadStateOf.modifyGet f : Reader α) where
  fails r p h := by cases h
  keeps r b r' h := by
    have hr : f r = (b, r') := Except.ok.inj h
    rw [← hf r, hr]

theorem bind {x : Reader α} {k : α → Reader β} (hx : Reads x) (hk : ∀ a, Reads (k a)) : Reads (x >>= k) where
  fails r p h := by
    change (x r >>= fun found => k found.1 found.2) = _ at h
    cases hres : x r with
    | error q =>
      rw [hres] at h
      cases h
      exact hx.fails r p hres
    | ok found =>
      rw [hres] at h
      rw [← hx.keeps r found.1 found.2 hres]
      exact (hk found.1).fails found.2 p h
  keeps r b r' h := by
    change (x r >>= fun found => k found.1 found.2) = _ at h
    cases hres : x r with
    | error q =>
      rw [hres] at h
      cases h
    | ok found =>
      rw [hres] at h
      rw [← hx.keeps r found.1 found.2 hres]
      exact (hk found.1).keeps found.2 b r' h

theorem ite {c : Prop} [Decidable c] {x y : Reader α} (hx : Reads x) (hy : Reads y) :
    Reads (if c then x else y) := by
  split
  · exact hx
  · exact hy

end Reads

theorem reads_next : Reads next where
  fails r p h := by
    obtain ⟨tokens, problem, nodes, named, handles⟩ := r
    cases tokens with
    | nil =>
      cases problem with
      | none => cases h; exact .inl rfl
      | some q => cases h; exact .inr rfl
    | cons t rest => cases h
  keeps r b r' h := by
    obtain ⟨tokens, problem, nodes, named, handles⟩ := r
    cases tokens with
    | nil => cases h
    | cons t rest => cases h; rfl

theorem reads_advance : Reads advance := .modifyGet fun _ => rfl

theorem reads_accept (t : Token) : Reads (accept t) :=
  .bind reads_next fun _ => .ite (.bind reads_advance fun _ => .pure _) (.pure _)

theorem reads_expect (t : Token) : Reads (expect t) :=
  .bind (reads_accept t) fun _ => .ite .malformed (.pure _)

theorem reads_isNext (tokens : List Token) : Reads (isNext tokens) := .bind reads_next fun _ => .pure _

theorem reads_add (name : Option String) (n : Node) : Reads (add name n) := .modifyGet fun _ => rfl

theorem reads_addEmpty : Reads addEmpty := reads_add none .empty

theorem reads_readAnchor : Reads readAnchor := by
  refine .bind reads_next fun t => ?_
  split
  · exact .bind reads_advance fun _ => .pure _
  · exact .pure _

theorem reads_readTag : Reads readTag := by
  refine .bind reads_next fun t => ?_
  split
  · exact .bind reads_advance fun _ => .pure _
  · exact .pure _

theorem reads_expandTag (tag : Option String × String) : Reads (expandTag tag) := by
  obtain ⟨handle, suffix⟩ := tag
  cases handle with
  | none => exact .pure _
  | some handle =>
    refine .bind .get fun r => ?_
    split
    · exact .pure _
    · exact .malformed

theorem reads_expandTag? (tag : Option (Option String × String)) : Reads (tag.mapM expandTag) := by
  cases tag with
  | none => exact .pure _
  | some tag => exact .bind (reads_expandTag tag) fun _ => .pure _

theorem reads_readProperties : Reads readProperties := by
  refine .bind reads_readAnchor fun anchor => ?_
  cases anchor with
  | some anchor => exact .bind reads_readTag fun tag => .bind (reads_expandTag? tag) fun _ => .pure _
  | none =>
    refine .bind reads_readTag fun tag => ?_
    exact .ite (.bind reads_readAnchor fun _ => .bind (reads_expandTag? tag) fun _ => .pure _)
      (.bind (.pure _) fun _ => .bind (reads_expandTag? tag) fun _ => .pure _)

theorem reads_readCollection {anchor tag : Option String} {make : List α → Content} {contents : Reader (List α)}
    (h : Reads contents) : Reads (readCollection anchor tag make contents) :=
  .bind (reads_add _ _) fun _ => .bind h fun _ => .bind (.modifyGet fun _ => rfl) fun _ => .pure _

/-- What is read of nodes with some fuel brings no problems of its own. -/
structure ReadsAll (fuel : Nat) : Prop where
  read : ∀ place, Reads (read fuel place)
  readContent : ∀ place anchor tag, Reads (readContent fuel place anchor tag)
  blockItems : Reads (blockItems fuel)
  flatItems : Reads (flatItems fuel)
  blockPairs : Reads (blockPairs fuel)
  flowPair : ∀ close, Reads (flowPair fuel close)
  flowItems : ∀ isFirst, Reads (flowItems fuel isFirst)
  flowPairs : ∀ isFirst, Reads (flowPairs fuel isFirst)

namespace ReadsAll

variable {fuel : Nat}

theorem zero : ReadsAll 0 where
  read _ := .malformed
  readContent _ _ _ := .malformed
  blockItems := .malformed
  flatItems := .malformed
  blockPairs := .malformed
  flowPair _ := .malformed
  flowItems _ := .malformed
  flowPairs _ := .malformed

theorem read_succ (h : ReadsAll fuel) (place : Setting) : Reads (Graph.read (fuel + 1) place) := by
  refine .bind reads_next fun t => ?_
  split
  · refine .bind reads_advance fun _ => .bind .get fun r => ?_
    split
    · exact .pure _
    · exact .malformed
  · refine .bind reads_readProperties ?_
    rintro ⟨anchor, tag⟩
    exact .bind reads_next fun _ => .bind .get fun _ =>
      .ite (.bind .malformed fun _ => h.readContent _ _ _) (h.readContent _ _ _)

theorem readContent_succ (h : ReadsAll fuel) (place : Setting) (anchor tag : Option String) :
    Reads (Graph.readContent (fuel + 1) place anchor tag) := by
  refine .bind reads_next fun t => ?_
  split
  · exact .bind reads_advance fun _ => reads_add _ _
  · exact .bind reads_advance fun _ => reads_readCollection (h.flowItems true)
  · exact .bind reads_advance fun _ => reads_readCollection (h.flowPairs true)
  · exact .ite (reads_readCollection h.flatItems) <|
      .ite (.bind reads_advance fun _ => reads_readCollection h.blockItems) <|
      .ite (.bind reads_advance fun _ => reads_readCollection h.blockPairs) <|
      .ite (.ite (reads_add _ _) (reads_add _ _)) .malformed

/-- A node, or nothing where one of some tokens is next. -/
theorem node_or_empty (h : ReadsAll fuel) {k : Nat → Reader α} (hk : ∀ n, Reads (k n)) (ends : List Token)
    (place : Setting) :
    Reads (isNext ends >>= fun isOver => if isOver then addEmpty >>= k else Graph.read fuel place >>= k) :=
  .bind (reads_isNext ends) fun _ => .ite (.bind reads_addEmpty hk) (.bind (h.read place) hk)

/-- The value of a pair, which may be left out. -/
theorem value_or_empty (h : ReadsAll fuel) {k : Nat → Reader α} (hk : ∀ n, Reads (k n)) (ends : List Token)
    (place : Setting) :
    Reads (accept .value >>= fun isGiven =>
      if isGiven then isNext ends >>= fun isOver => if isOver then addEmpty >>= k else Graph.read fuel place >>= k
      else addEmpty >>= k) :=
  .bind (reads_accept _) fun _ => .ite (h.node_or_empty hk ends place) (.bind reads_addEmpty hk)

/-- The entries inside brackets, each after the first behind a comma, with a comma allowed behind the last. -/
theorem entries (close : Token) (isFirst : Bool) {k : Reader (List α)} (hk : Reads k) :
    Reads (accept close >>= fun isOver =>
      if isOver then Pure.pure []
      else if !isFirst then
        expect .flowEntry >>= fun _ => accept close >>= fun isOver => if isOver then Pure.pure [] else k
      else accept close >>= fun isOver => if isOver then Pure.pure [] else k) := by
  have hnext : Reads (accept close >>= fun isOver => if isOver then Pure.pure [] else k) :=
    .bind (reads_accept close) fun _ => .ite (.pure _) hk
  exact .bind (reads_accept close) fun _ => .ite (.pure _) (.ite (.bind (reads_expect _) fun _ => hnext) hnext)

theorem succ (h : ReadsAll fuel) : ReadsAll (fuel + 1) where
  read := h.read_succ
  readContent := h.readContent_succ
  blockItems := .bind (reads_accept _) fun _ => .ite
    (h.node_or_empty (fun _ => .bind h.blockItems fun _ => .pure _) _ _)
    (.bind (reads_expect _) fun _ => .pure _)
  flatItems := .bind (reads_accept _) fun _ => .ite
    (h.node_or_empty (fun _ => .bind h.flatItems fun _ => .pure _) _ _)
    (.pure _)
  blockPairs := .bind (reads_accept _) fun _ => .ite
    (h.node_or_empty (fun _ => h.value_or_empty (fun _ => .bind h.blockPairs fun _ => .pure _) _ _) _ _)
    (.bind (reads_expect _) fun _ => .pure _)
  flowPair _ := h.node_or_empty (fun _ => h.value_or_empty (fun _ => .pure _) _ _) _ _
  flowItems isFirst := entries _ isFirst <| .bind (reads_accept _) fun _ => .ite
    (.bind (h.flowPair _) fun _ => .bind (reads_add _ _) fun _ => .bind (h.flowItems false) fun _ => .pure _)
    (.bind (h.read _) fun _ => .bind (h.flowItems false) fun _ => .pure _)
  flowPairs isFirst := entries _ isFirst <| .bind (reads_accept _) fun _ => .ite
    (.bind (h.flowPair _) fun _ => .bind (h.flowPairs false) fun _ => .pure _)
    (.bind (h.read _) fun _ => .bind reads_addEmpty fun _ => .bind (.pure _) fun _ =>
      .bind (h.flowPairs false) fun _ => .pure _)

theorem all (fuel : Nat) : ReadsAll fuel := by
  induction fuel with
  | zero => exact zero
  | succ fuel ih => exact ih.succ

end ReadsAll

theorem reads_readDirectives (fuel : Nat) (hasVersion : Bool) (handles : List (String × String)) :
    Reads (readDirectives fuel hasVersion handles) := by
  induction fuel generalizing hasVersion handles with
  | zero => exact .malformed
  | succ fuel ih =>
    refine .bind reads_next fun t => ?_
    split
    · rename_i d
      refine .bind reads_advance fun _ => ?_
      cases d with
      | version major => exact .ite (.bind .malformed fun _ => ih _ _) (ih _ _)
      | tagHandle handle expansion => exact .ite (.bind .malformed fun _ => ih _ _) (ih _ _)
      | other => exact ih _ _
    · exact .pure _

theorem reads_skipEnds (fuel : Nat) : Reads (skipEnds fuel) := by
  induction fuel with
  | zero => exact .malformed
  | succ fuel ih => exact .bind (reads_accept _) fun _ => .ite ih (.pure _)

theorem reads_readDocument (fuel : Nat) (mayBeEmpty : Bool) : Reads (readDocument fuel mayBeEmpty) := by
  have hend (n : Nat) : Reads (do
      skipEnds fuel
      expect .streamEnd
      return n) := .bind (reads_skipEnds fuel) fun _ => .bind (reads_expect _) fun _ => .pure _
  exact .bind reads_next fun _ => .ite (.bind reads_addEmpty hend) (.bind ((ReadsAll.all fuel).read _) hend)

theorem reads_readStream (fuel : Nat) : Reads (readStream fuel) := by
  have hdirected : Reads (do
      let handles ← readDirectives fuel false []
      expect .documentStart
      modify fun r => { r with handles := handles ++ standardHandles }
      return some (← readDocument fuel true)) :=
    .bind (reads_readDirectives _ _ _) fun _ => .bind (reads_expect _) fun _ =>
      .bind (.modifyGet fun _ => rfl) fun _ => .bind (reads_readDocument _ _) fun _ => .pure _
  refine .bind reads_next fun t => ?_
  split
  · exact .pure _
  · exact hdirected
  · exact hdirected
  · exact .bind (reads_readDocument _ _) fun _ => .pure _

/-- The problem of tokens that make no graph is their own. -/
theorem ofScan_error {scan : Scan} {p : Problem} (h : ofScan scan = .error p) :
    p = .malformed ∨ scan.problem = some p := by
  unfold ofScan at h
  cases hres : (readStream (4 * scan.tokens.length + 8)).run
      ⟨scan.tokens, scan.problem, #[], [], standardHandles⟩ with
  | error q =>
    simp only [hres] at h
    cases h
    exact (reads_readStream _).fails _ p hres
  | ok found =>
    simp only [hres] at h
    cases h

theorem ofScan_tokensOf {text : List Char} {p : Problem} (h : ofScan (tokensOf text) = .error p) :
    IsScanProblem p := by
  rcases ofScan_error h with rfl | hp
  · exact .malformed
  · exact problem_tokensOf hp

end Graph

end LogRef.Yaml
