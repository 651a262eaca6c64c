import AsmTree.Proofs.Text.Bytes
import AsmTree.Proofs.Token.Numbers
import AsmTree.Proofs.Token.Partition
import AsmTree.Proofs.Tree.Places
import AsmTree.View.Doc

/-!
# Comments above a place

Documentation is read off the trees before a place, from the nearest to the farthest. `commentsOver`
gives the comments that it is made of, and `Standing` says how these trees stand in the text: side
by side, the tokens among them as tokens of the text.

**Main statements:** a place is documented by what these comments say, in source order (`doc?_eq`);
between a comment and the next one, or the place, no line is empty; and a line comment has a line of
its own (`Standing.comments`, `Standing.gaps`).
-/

namespace AsmTree

open AsmTree.Tree

/-! ## Where comments stand in a text -/

/-- Characters that may stand in front of the first token of a line. -/
def lineBlanks : List Char := [' ', '\t', '\r']

/-- Everything in front of an offset on its line is blank. -/
def OpensLine (text : String) (offset : Nat) : Prop :=
  ∃ start line, Between text start offset line ∧ (∀ c ∈ line, c ∈ lineBlanks) ∧
    (start = 0 ∨ ∃ i, Between text i start ['\n'])

/-- Between two offsets the text is blank, and has the end of one line at most. -/
def Adjoin (text : String) (i j : Nat) : Prop :=
  ∃ gap, Between text i j gap ∧ (∀ c ∈ gap, c ∈ '\n' :: lineBlanks) ∧ gap.count '\n' ≤ 1

theorem Adjoin.le {text : String} {i j : Nat} (h : Adjoin text i j) : i ≤ j := by
  obtain ⟨gap, hgap, -⟩ := h
  exact hgap.le

/-- A token of a text in its place. -/
def IsTokenOf (text : String) (l : Located) : Prop :=
  ∃ token ∈ tokenize text, l = ⟨token.offset, .token token.kind token.text⟩

section

variable {text : String} {t : Token} {l : Located}

theorem between_of_mem (h : t ∈ tokenize text) :
    Between text t.offset (t.offset + t.length) t.text.toList := by
  obtain ⟨ts, ts', hsplit⟩ := List.append_of_mem h
  obtain ⟨lexer, hreads, hrest⟩ := exists_reads_of_tokenize hsplit
  obtain ⟨-, -, -, hslice⟩ := hreads.next_token hrest
  exact TextRange.between_of_slice? hslice

theorem blank_of_whitespace (h : t ∈ tokenize text) (hk : t.kind = .whitespace) :
    ∀ c ∈ t.text.toList, c ∈ lineBlanks := by
  obtain ⟨p, hp, hmatches⟩ := exists_pattern_of_mem h (by rw [hk]; decide)
  rw [hk] at hp
  obtain rfl : p = Pattern.plus (.one Lexical.blank) := List.mem_singleton.1 hp
  intro c hc
  have hblank := (Pattern.exists_of_matches_plus hmatches).2 c hc
  exact CharClass.contains_ofChars.1 hblank

theorem eq_of_newline (h : t ∈ tokenize text) (hk : t.kind = .newline) :
    t.text.toList = ['\n'] := by
  obtain ⟨p, hp, hmatches⟩ := exists_pattern_of_mem h (by rw [hk]; decide)
  rw [hk] at hp
  obtain rfl : p = Pattern.word "\n" := List.mem_singleton.1 hp
  exact Pattern.matches_word_singleton.1 hmatches

theorem IsTokenOf.between (h : IsTokenOf text l) : Between text l.start l.stop l.text.toList := by
  obtain ⟨token, htoken, rfl⟩ := h
  rw [Located.text_token]
  exact between_of_mem htoken

theorem IsTokenOf.blank (h : IsTokenOf text l) (hk : l.kind = .whitespace) :
    ∀ c ∈ l.text.toList, c ∈ lineBlanks := by
  obtain ⟨token, htoken, rfl⟩ := h
  rw [Located.text_token]
  exact blank_of_whitespace htoken hk

theorem IsTokenOf.newline (h : IsTokenOf text l) (hk : l.kind = .newline) :
    l.text.toList = ['\n'] := by
  obtain ⟨token, htoken, rfl⟩ := h
  rw [Located.text_token]
  exact eq_of_newline htoken hk

end

namespace View

variable {text : String} {n : Nat} {x c l : Located} {before gap rest above : List Located}

/-! ## The comments that are read -/

def contents (l : Located) : String :=
  if l.kind = .comment then lineComment l.text else blockComment l.text

/-- The comments that document a place with some trees before it, the nearest first. `newlines`
counts the line ends passed since the last comment. -/
def commentsOver (newlines : Nat) : List Located → List Located
  | [] => []
  | l :: before =>
    if !l.isToken then []
    else
      match l.kind with
      | .whitespace => commentsOver newlines before
      | .newline => if newlines = 0 then commentsOver 1 before else []
      | .comment => if startsLine before then l :: commentsOver 0 before else []
      | .blockComment => if (blockComment l.text).isEmpty then [] else [l]
      | _ => []

/-- The comments that document a place, in source order. -/
def documenting (c : Cursor) : List Located := (commentsOver 0 c.before).reverse

theorem commentsAbove_eq (n : Nat) (found : List String) (before : List Located) :
    commentsAbove n found before = ((commentsOver n before).reverse.map contents) ++ found := by
  fun_induction commentsAbove n found before with
  | case1 => rfl
  | case2 n found l before htoken => simp [commentsOver, htoken]
  | case3 n found l before htoken hk ih => simp [commentsOver, htoken, hk, ih]
  | case4 found l before htoken hk ih => simp [commentsOver, htoken, hk, ih]
  | case5 n found l before htoken hk hn => simp [commentsOver, htoken, hk, hn]
  | case6 n found l before htoken hk hstarts ih =>
    simp [commentsOver, htoken, hk, hstarts, ih, contents]
  | case7 n found l before htoken hk hstarts => simp [commentsOver, htoken, hk, hstarts]
  | case8 n found l before htoken hk content hempty =>
    simp [commentsOver, htoken, hk, show (blockComment l.text).isEmpty = true from hempty]
  | case9 n found l before htoken hk content hempty =>
    simp [commentsOver, htoken, hk, show ¬ (blockComment l.text).isEmpty = true from hempty,
      contents, content]
  | case10 n found l before htoken hspace hnewline hcomment hblock =>
    -- any other token ends the comments
    unfold commentsOver
    simp [htoken]

/-- **A place is documented by what its comments say**, unless they say nothing. -/
theorem doc?_eq (c : Cursor) : doc? c =
    if (documenting c).all fun l => (contents l).isEmpty then none
    else some ("\n".intercalate ((documenting c).map contents)) := by
  unfold doc?
  dsimp only
  rw [commentsAbove_eq, List.append_nil, List.all_map]
  rfl

/-- How the nearest comment is found: beyond blanks and the end of one line at most, counted with
those that were passed before. There are others behind it only if it has a line of its own. -/
structure Nearest (newlines : Nat) (before : List Located) (c : Located)
    (rest gap above : List Located) : Prop where
  split : before = gap ++ c :: above
  passed : ∀ l ∈ gap, l.isToken = true ∧ (l.kind = .whitespace ∨ l.kind = .newline)
  lines : gap.countP (·.kind = .newline) + newlines ≤ 1
  token : c.isToken = true
  others : c.kind = .comment ∧ startsLine above = true ∧ rest = commentsOver 0 above ∨
    c.kind = .blockComment ∧ rest = []

theorem Nearest.pass {m : Nat} (h : Nearest m before c rest gap above) (htoken : l.isToken = true)
    (hk : l.kind = .whitespace ∧ m = n ∨ l.kind = .newline ∧ m = n + 1) :
    Nearest n (l :: before) c rest (l :: gap) above where
  split := by rw [h.split, List.cons_append]
  passed := List.forall_mem_cons.2 ⟨⟨htoken, hk.imp And.left And.left⟩, h.passed⟩
  lines := by
    have hlines := h.lines
    rw [List.countP_cons]
    rcases hk with ⟨hk, rfl⟩ | ⟨hk, rfl⟩
    · simpa [hk] using hlines
    · simp only [hk, decide_true, if_true]
      omega
  token := h.token
  others := h.others

theorem Nearest.here (hn : n ≤ 1) (htoken : c.isToken = true)
    (hothers : c.kind = .comment ∧ startsLine before = true ∧ rest = commentsOver 0 before ∨
      c.kind = .blockComment ∧ rest = []) : Nearest n (c :: before) c rest [] before where
  split := rfl
  passed _ hl := absurd hl List.not_mem_nil
  lines := by simpa using hn
  token := htoken
  others := hothers

theorem exists_nearest (hn : n ≤ 1) (h : commentsOver n before = c :: rest) :
    ∃ gap above, Nearest n before c rest gap above := by
  induction before generalizing n with
  | nil => cases h
  | cons l before ih =>
    unfold commentsOver at h
    split at h
    · cases h
    · next htoken =>
      simp only [Bool.not_eq_true, Bool.not_eq_false'] at htoken
      split at h
      · next hk =>
        obtain ⟨gap, above, hnearest⟩ := ih hn h
        exact ⟨l :: gap, above, hnearest.pass htoken (Or.inl ⟨hk, rfl⟩)⟩
      · next hk =>
        split at h
        · next hzero =>
          obtain ⟨gap, above, hnearest⟩ := ih (Nat.le_refl 1) h
          exact ⟨l :: gap, above, hnearest.pass htoken (Or.inr ⟨hk, by rw [hzero]⟩)⟩
        · cases h
      · next hk =>
        split at h
        · next hstarts =>
          obtain ⟨rfl, rfl⟩ := List.cons.inj h
          exact ⟨[], before, .here hn htoken (Or.inl ⟨hk, hstarts, rfl⟩)⟩
        · cases h
      · next hk =>
        split at h
        · cases h
        · obtain ⟨rfl, rfl⟩ := List.cons.inj h
          exact ⟨[], before, .here hn htoken (Or.inr ⟨hk, rfl⟩)⟩
      · cases h

/-! ## Trees before a place -/

/-- How the trees before a tree stand in a text, the nearest first. -/
structure Standing (text : String) (x : Located) (before : List Located) : Prop where
  /-- They are side by side. -/
  chain : (x :: before).IsChain fun later earlier => earlier.stop = later.start
  tokens : ∀ l ∈ before, l.isToken = true → IsTokenOf text l
  /-- What has the kind of a token is one, or a recovered region. -/
  words : ∀ l ∈ before, l.kind.isToken = true → l.kind ≠ .error → l.isToken = true
  /-- Only at the start of the text a node begins with trivia. -/
  edge : ∀ l, (x :: before).getLast? = some l → l.kind.isTrivia = true → l.start = 0

namespace Standing

theorem tail (h : Standing text x (l :: before)) : Standing text l before where
  chain := h.chain.tail
  tokens l hl := h.tokens l (List.mem_cons_of_mem _ hl)
  words l hl := h.words l (List.mem_cons_of_mem _ hl)
  edge l hl := h.edge l hl

theorem drop (h : Standing text x (gap ++ c :: before)) : Standing text c before := by
  induction gap generalizing x with
  | nil => exact h.tail
  | cons l gap ih => exact ih h.tail

theorem stop_eq (h : Standing text x (l :: before)) : l.stop = x.start :=
  (List.isChain_cons_cons.1 h.chain).1

/-- A token that stands on its line behind blanks only is the first on its line. -/
theorem opensLine (h : Standing text x before) (hx : x.kind.isTrivia = true)
    (hstarts : startsLine before = true) : OpensLine text x.start := by
  induction before generalizing x with
  | nil =>
    rw [h.edge x rfl hx]
    exact ⟨0, [], between_origin text, fun _ hc => absurd hc List.not_mem_nil, Or.inl rfl⟩
  | cons l before ih =>
    have htoken (hk : l.kind.isToken = true) (hne : l.kind ≠ .error) : IsTokenOf text l :=
      h.tokens l List.mem_cons_self (h.words l List.mem_cons_self hk hne)
    unfold startsLine at hstarts
    rw [← h.stop_eq]
    split at hstarts
    · next hk =>
      have hl := htoken (by rw [hk]; decide) (by rw [hk]; decide)
      obtain ⟨start, line, hline, hblank, hstart⟩ := ih h.tail (by rw [hk]; decide) hstarts
      refine ⟨start, line ++ l.text.toList, hline.append hl.between, ?_, hstart⟩
      exact List.forall_mem_append.2 ⟨hblank, hl.blank hk⟩
    · next hk =>
      have hl := htoken (by rw [hk]; decide) (by rw [hk]; decide)
      have hbetween := hl.between
      rw [hl.newline hk] at hbetween
      exact ⟨l.stop, [], hbetween.behind, fun _ hc => absurd hc List.not_mem_nil,
        Or.inr ⟨l.start, hbetween⟩⟩
    · cases hstarts

/-- Blanks and line ends are the text between two trees. -/
theorem exists_between (h : Standing text x (gap ++ c :: before)) (hc : c.isToken = true)
    (hgap : ∀ l ∈ gap, l.isToken = true ∧ (l.kind = .whitespace ∨ l.kind = .newline)) :
    ∃ w, Between text c.stop x.start w ∧ (∀ ch ∈ w, ch ∈ '\n' :: lineBlanks) ∧
      w.count '\n' = gap.countP (·.kind = .newline) := by
  induction gap generalizing x with
  | nil =>
    have hbetween := (h.tokens c List.mem_cons_self hc).between
    refine ⟨[], ?_, fun _ hch => absurd hch List.not_mem_nil, rfl⟩
    rw [← h.stop_eq]
    exact hbetween.behind
  | cons l gap ih =>
    obtain ⟨w, hw, hchars, hcount⟩ := ih h.tail fun l hl => hgap l (List.mem_cons_of_mem _ hl)
    obtain ⟨htoken, hk⟩ := hgap l List.mem_cons_self
    have hl := h.tokens l List.mem_cons_self htoken
    have hstop : l.stop = x.start := h.stop_eq
    refine ⟨w ++ l.text.toList, hstop ▸ hw.append hl.between, List.forall_mem_append.2 ⟨hchars, ?_⟩,
      ?_⟩
    · rcases hk with hk | hk
      · exact fun ch hch => List.mem_cons_of_mem _ (hl.blank hk ch hch)
      · rw [hl.newline hk]
        exact fun ch hch => List.mem_cons.2 (Or.inl (List.mem_singleton.1 hch))
    · rw [List.count_append, hcount, List.countP_cons]
      rcases hk with hk | hk
      · have hnone : '\n' ∉ l.text.toList := fun hmem => by
          have := hl.blank hk _ hmem
          revert this
          decide
        rw [List.count_eq_zero.2 hnone, hk]
        rfl
      · rw [hl.newline hk, hk]
        rfl

/-- **The comments that document a place are tokens of the text, the line comments among them first
on their lines.** Only the farthest can be a block comment. -/
theorem comments (h : Standing text x before) (hn : n ≤ 1) : ∀ c ∈ commentsOver n before,
    IsTokenOf text c ∧ (c.kind = .comment ∧ OpensLine text c.start ∨
      c.kind = .blockComment ∧ (commentsOver n before).getLast? = some c) := by
  generalize hcs : commentsOver n before = cs
  induction cs generalizing x n before with
  | nil => exact fun _ hc => absurd hc List.not_mem_nil
  | cons c cs ih =>
    obtain ⟨gap, above, rfl, -, -, htoken, hc⟩ := exists_nearest hn hcs
    have hstanding : Standing text c above := h.drop
    have hmem := h.tokens c (List.mem_append_right _ List.mem_cons_self) htoken
    rcases hc with ⟨hk, hstarts, rfl⟩ | ⟨hk, rfl⟩
    · have hfirst := hstanding.opensLine (by rw [hk]; rfl) hstarts
      refine List.forall_mem_cons.2 ⟨⟨hmem, Or.inl ⟨hk, hfirst⟩⟩, fun d hd => ?_⟩
      obtain ⟨htoken, hd' | ⟨hk, hlast⟩⟩ := ih hstanding (Nat.zero_le 1) rfl d hd
      · exact ⟨htoken, Or.inl hd'⟩
      · rw [List.getLast?_cons, hlast]
        exact ⟨htoken, Or.inr ⟨hk, rfl⟩⟩
    · intro d hd
      obtain rfl := List.mem_singleton.1 hd
      exact ⟨hmem, Or.inr ⟨hk, rfl⟩⟩

/-- **No line is empty between a comment and the next one, or the place.** -/
theorem gaps (h : Standing text x before) (hn : n ≤ 1) : (x :: commentsOver n before).IsChain
    fun later earlier => Adjoin text earlier.stop later.start := by
  generalize hcs : commentsOver n before = cs
  induction cs generalizing x n before with
  | nil => exact List.isChain_singleton _
  | cons c cs ih =>
    obtain ⟨gap, above, rfl, hgap, hcount, htoken, hc⟩ := exists_nearest hn hcs
    obtain ⟨w, hw, hchars, hlines⟩ := h.exists_between htoken hgap
    have hadjoin : Adjoin text c.stop x.start := ⟨w, hw, hchars, by omega⟩
    refine List.isChain_cons_cons.2 ⟨hadjoin, ?_⟩
    rcases hc with ⟨-, -, rfl⟩ | ⟨-, rfl⟩
    · exact ih h.drop (Nat.zero_le 1) rfl
    · exact List.isChain_singleton _

end Standing

end View

end AsmTree
