import ServerlessTaint.Proofs.SpelledScalars

/-!
# Tokens of block collections

What one step of the lexer does in block context: it moves to the next token and closes the blocks
that end before it (`run_settle`), and reads a hyphen, a key with its colon, or a scalar. `Reads` says
that some steps lead from one state to another; it is what the steps of a whole text are made of.
-/

namespace ServerlessTaint.Yaml

open List
open Cursor

/-- The key is too far away to be one. -/
def PendingKey.isStale (here : Mark) (k : PendingKey) : Bool :=
  k.mark.line != here.line || Lex.maxKeyLength < here.index - k.mark.index

/-- A state in block context in which no token may turn out to be a key. -/
def LexState.inBlock (allowed : Bool) (c : Cursor) (indents : List Nat) (tokens : List Token) (count : Nat) :
    LexState :=
  { cursor := c, indents := indents, keyAllowed := allowed, tokens := tokens, count := count }

/-- The state after a scalar: if a key was allowed there, the scalar may be one. -/
def LexState.afterScalar (allowed broken : Bool) (m : Mark) (after : Cursor) (indents : List Nat) (t : Token)
    (tokens : List Token) (count : Nat) : LexState :=
  { cursor := after, indents := indents, keyAllowed := broken, tokens := t :: tokens, count := count + 1
    pending := if allowed then [(0, ⟨count, indents.head? == some m.column, m⟩)] else [] }

/-- The least column inside the innermost block. -/
def insideOf (indents : List Nat) : Nat := (indents.head?.map (· + 1)).getD 0

theorem insideOf_le {indents : List Nat} {column : Nat} (h : ∀ i ∈ indents.head?, i ≤ column) :
    insideOf indents ≤ column + 1 := by
  cases indents with
  | nil => exact Nat.zero_le _
  | cons i indents => exact Nat.succ_le_succ (h i rfl)

section Runs

variable {σ α β : Type} {x : StateT σ (Except YamlFault) α} {f : α → StateT σ (Except YamlFault) β} {s s' : σ}
  {a : α} {e : YamlFault}

theorem run_bind_ok (h : x.run s = .ok (a, s')) : (x >>= f).run s = (f a).run s' := by
  show (x.run s >>= fun p => (f p.1).run p.2) = _
  rw [h]
  rfl

theorem run_bind_error (h : x.run s = .error e) : (x >>= f).run s = .error e := by
  show (x.run s >>= fun p => (f p.1).run p.2) = _
  rw [h]
  rfl

end Runs

namespace Lex

/-! ## Moving to the next token -/

variable {m : Mark} {s s' : LexState} {ws next : List Char}

/-- The first line of a gap. -/
theorem gap_cases (hws : IsGap ws) :
    ∃ n, ws = replicate n ' ' ∨ ∃ rest, ws = replicate n ' ' ++ '\n' :: rest ∧ IsGap rest := by
  induction ws with
  | nil => exact ⟨0, .inl rfl⟩
  | cons c ws ih =>
    have hrest : IsGap ws := fun d hd => hws d (mem_cons_of_mem _ hd)
    have hc := hws c mem_cons_self
    simp only [isGapChar, Bool.or_eq_true, beq_iff_eq] at hc
    rcases hc with rfl | rfl
    · obtain ⟨n, rfl | ⟨rest, rfl, hmore⟩⟩ := ih hrest
      · exact ⟨n + 1, .inl rfl⟩
      · exact ⟨n + 1, .inr ⟨rest, rfl, hmore⟩⟩
    · exact ⟨0, .inr ⟨ws, rfl, hrest⟩⟩

theorem run_skipToToken (hflow : s.flowLevel = 0) (hcursor : s.cursor = ⟨ws ++ next, m⟩) (hws : IsGap ws)
    (hnext : AtToken next) {fuel : Nat} (hfuel : ws.length < fuel) :
    (skipToToken fuel).run s =
      .ok ((), { s with cursor := ⟨next, m.past ws⟩, keyAllowed := s.keyAllowed || ws.contains '\n' }) := by
  induction fuel generalizing s ws m with
  | zero => omega
  | succ fuel ih =>
    have hspace : ∀ c ∈ next.head?, c ≠ ' ' := fun c hc => ne_of_isInk (hnext.ink c hc) rfl
    obtain ⟨n, rfl | ⟨rest, rfl, hrest⟩⟩ := gap_cases hws
    · have hskip : skipComment (skipSpaces s.cursor) = ⟨next, m.past (replicate n ' ')⟩ := by
        rw [hcursor, skipSpaces_append hspace, skipComment, if_neg]
        simpa [isNext, peek?] using hnext.noComment
      have hbreak : lineBreak? ⟨next, m.past (replicate n ' ')⟩ = none := by
        cases next with
        | nil => rfl
        | cons c next => exact lineBreak?_of_isInLine (isInLine_of_isInk (hnext.ink c rfl))
      rw [skipToToken, run_bind_ok rfl]
      simp only [hskip, hbreak]
      simp [goTo]
      rfl
    · have hskip : skipComment (skipSpaces s.cursor) =
          ⟨'\n' :: (rest ++ next), m.past (replicate n ' ')⟩ := by
        rw [hcursor, append_assoc, skipSpaces_append (by simp)]
        rfl
      rw [skipToToken, run_bind_ok rfl]
      simp only [hskip, lineBreak?_newline]
      rw [run_bind_ok rfl]
      have hmore := ih (s := { s with
          cursor := ⟨rest ++ next, (m.past (replicate n ' ')).past ['\n']⟩
          keyAllowed := s.keyAllowed || s.flowLevel = 0 }) hflow rfl hrest (by simp at hfuel; omega)
      rw [hmore]
      simp [hflow]

theorem run_dropStaleKeys (h : ∀ p ∈ s.pending, p.2.isStale s.cursor.mark → p.2.required = false) :
    dropStaleKeys.run s =
      .ok ((), { s with pending := s.pending.filter fun p => !p.2.isStale s.cursor.mark }) := by
  have hany : (s.pending.any fun p => p.2.isStale s.cursor.mark && p.2.required) = false := by
    rw [any_eq_false]
    intro p hp
    cases hstale : p.2.isStale s.cursor.mark with
    | false => simp
    | true => simp [h p hp hstale]
  show (if (s.pending.any fun p => p.2.isStale s.cursor.mark && p.2.required) = true then _ else _ : Lex Unit).run s = _
  rw [hany]
  rfl

/-- The lexer moves over a gap to the next token; what is too far away to be a key is forgotten. -/
theorem run_settle (hflow : s.flowLevel = 0) (hcursor : s.cursor = ⟨ws ++ next, m⟩) (hws : IsGap ws)
    (hnext : AtToken next) (hpending : ∀ p ∈ s.pending, p.2.isStale (m.past ws) → p.2.required = false) :
    settle.run s = (unwind (some (m.past ws).column)).run
      { s with
        cursor := ⟨next, m.past ws⟩
        keyAllowed := s.keyAllowed || ws.contains '\n'
        pending := s.pending.filter fun p => !p.2.isStale (m.past ws) } := by
  have hbom : isNext '\ufeff' s.cursor = false := by
    rw [hcursor]
    cases ws with
    | nil =>
      cases next with
      | nil => rfl
      | cons c next => simpa [isNext, peek?] using ne_of_isInk (d := '\ufeff') (hnext.ink c rfl) rfl
    | cons c ws =>
      have hc := ne_of_tidy (d := '\ufeff') (hws.tidy c mem_cons_self) rfl (by decide)
      simpa [isNext, peek?] using hc
  have hfuel : ws.length < s.cursor.rest.length + 1 := by
    rw [hcursor, length_append]
    omega
  rw [settle, run_bind_ok rfl]
  simp only [hbom, Bool.and_false, Bool.false_eq_true, if_false]
  rw [run_bind_ok rfl, run_bind_ok (run_skipToToken hflow hcursor hws hnext hfuel),
    run_bind_ok (run_dropStaleKeys hpending), run_bind_ok rfl]
  rfl

theorem run_unwind (hflow : s.flowLevel = 0) (column : Nat) :
    (unwind (some column)).run s =
      let inner := s.indents.takeWhile (column < ·)
      .ok ((), { s with
        indents := s.indents.drop inner.length
        tokens := inner.map (fun _ => Token.mk .blockEnd s.cursor.mark s.cursor.mark) ++ s.tokens
        count := s.count + inner.length }) := by
  rw [unwind, run_bind_ok rfl, if_pos hflow]
  rfl

/-- No block ends before a token that is indented as deep as the innermost block. -/
theorem run_unwind_none (hflow : s.flowLevel = 0) {column : Nat} (h : ∀ i ∈ s.indents.head?, i ≤ column) :
    (unwind (some column)).run s = .ok ((), s) := by
  have hinner : s.indents.takeWhile (column < ·) = [] := by
    cases hi : s.indents with
    | nil => rfl
    | cons i indents =>
      have : ¬column < i := Nat.not_lt.2 (h i (by simp [hi]))
      simp [this]
  rw [run_unwind hflow]
  simp only [hinner]
  rfl

/-- A block that ends before a token may be closed beforehand. -/
theorem run_unwind_cons {allowed : Bool} {cs : List Char} {i : Nat} (hi : m.column < i) (indents : List Nat)
    (tokens : List Token) (count : Nat) :
    (unwind (some m.column)).run (.inBlock allowed ⟨cs, m⟩ (i :: indents) tokens count) =
      (unwind (some m.column)).run
        (.inBlock allowed ⟨cs, m⟩ indents (⟨.blockEnd, m, m⟩ :: tokens) (count + 1)) := by
  -- the marks of the ends are all equal, so their order does not matter
  have hends : ∀ (inner : List Nat) (t : Token), t :: (inner.map (fun _ => t) ++ tokens) =
      inner.map (fun _ => t) ++ t :: tokens := by
    intro inner t
    rw [map_const', ← cons_append, ← replicate_succ, replicate_succ', append_assoc, singleton_append]
  rw [run_unwind rfl, run_unwind rfl]
  simp only [LexState.inBlock, takeWhile_cons, hi, decide_true, if_true, map_cons, length_cons,
    drop_succ_cons, cons_append, hends, Nat.add_assoc, Nat.add_comm 1]

/-! ## Steps -/

/-- Some steps of the lexer lead from a state to another, and each takes a character at least. -/
def Reads (s s' : LexState) : Prop :=
  ∃ n, n + s'.cursor.rest.length ≤ s.cursor.rest.length ∧
    ∀ fuel, (tokens (n + fuel)).run s = (tokens fuel).run s'

def Fails (s : LexState) : Prop :=
  ∃ n, n ≤ s.cursor.rest.length + 1 ∧ ∀ fuel, (tokens (n + fuel)).run s = .error .malformed

namespace Reads

variable {s s' s'' : LexState}

theorem refl (s : LexState) : Reads s s := ⟨0, by simp, fun fuel => by rw [Nat.zero_add]⟩

theorem trans (h : Reads s s') (h' : Reads s' s'') : Reads s s'' := by
  obtain ⟨n, hn, hread⟩ := h
  obtain ⟨n', hn', hread'⟩ := h'
  exact ⟨n + n', by omega, fun fuel => by rw [Nat.add_assoc, hread, hread']⟩

theorem of_token (h : token.run s = .ok (true, s')) (hrest : s'.cursor.rest.length < s.cursor.rest.length) :
    Reads s s' := by
  refine ⟨1, by omega, fun fuel => ?_⟩
  rw [Nat.add_comm, tokens, run_bind_ok h]
  rfl

/-- Two states are as good as each other if the next token is the same in both. -/
theorem of_same (h : token.run s = token.run s') (hrest : s'.cursor.rest.length ≤ s.cursor.rest.length) :
    Reads s s' := by
  refine ⟨0, by omega, fun fuel => ?_⟩
  rw [Nat.zero_add]
  cases fuel with
  | zero => rfl
  | succ fuel =>
    show (token.run s >>= fun p => (if p.1 then tokens fuel else pure ()).run p.2) = _
    rw [h]
    rfl

end Reads

theorem Fails.of_token (h : token.run s = .error .malformed) : Fails s := by
  refine ⟨1, by omega, fun fuel => ?_⟩
  rw [Nat.add_comm, tokens, run_bind_error h]

theorem Reads.fails (h : Reads s s') (h' : Fails s') : Fails s := by
  obtain ⟨n, hn, hread⟩ := h
  obtain ⟨n', hn', hfail⟩ := h'
  exact ⟨n + n', by omega, fun fuel => by rw [Nat.add_assoc, hread, hfail]⟩

/-! ## Blocks -/

theorem token_congr (h : settle.run s = settle.run s') : token.run s = token.run s' := by
  show (settle.run s >>= fun p => tokenHere.run p.2) = _
  rw [h]
  rfl

section Blocks

variable {allowed : Bool} {ind : List Nat} {T : List Token} {n : Nat} {rest ws next : List Char} {m : Mark}

theorem settle_inBlock (hnext : AtToken next) :
    settle.run (.inBlock allowed ⟨next, m⟩ ind T n) =
      (unwind (some m.column)).run (.inBlock allowed ⟨next, m⟩ ind T n) := by
  have hgap : IsGap [] := nofun
  have hcursor : (LexState.inBlock allowed ⟨next, m⟩ ind T n).cursor = ⟨[] ++ next, m⟩ := rfl
  rw [run_settle rfl hcursor hgap hnext nofun]
  simp [LexState.inBlock]

/-- Where the next token starts and no block ends, it is read at once. -/
theorem token_inBlock (hnext : AtToken next) (hind : ∀ i ∈ ind.head?, i ≤ m.column) :
    token.run (.inBlock allowed ⟨next, m⟩ ind T n) = tokenHere.run (.inBlock allowed ⟨next, m⟩ ind T n) := by
  have hsettle : settle.run (.inBlock allowed ⟨next, m⟩ ind T n) = _ :=
    (settle_inBlock hnext).trans (run_unwind_none rfl hind)
  rw [token, run_bind_ok hsettle]

variable {column : Nat} {x : Char} {broken : Bool} {stop : Mark} {after : Cursor} {s : LexState} {cs text : List Char}

/-- Once a line has ended, a token may be a key again, and those before are no longer keys. -/
theorem reads_gap (hflow : s.flowLevel = 0) (hcursor : s.cursor = ⟨ws ++ next, m⟩) (hws : IsGap ws)
    (hnext : AtToken next) (hallowed : s.keyAllowed ∨ '\n' ∈ ws)
    (hpending : ∀ p ∈ s.pending, p.2.isStale (m.past ws) ∧ p.2.required = false) :
    Reads s (.inBlock true ⟨next, m.past ws⟩ s.indents s.tokens s.count) := by
  have hallowed : (s.keyAllowed || ws.contains '\n') = true := by simpa using hallowed
  have hfilter : (s.pending.filter fun p => !p.2.isStale (m.past ws)) = [] := by
    rw [filter_eq_nil_iff]
    intro p hp
    simp [(hpending p hp).1]
  refine .of_same (token_congr ?_) (by simp [hcursor, LexState.inBlock])
  rw [settle_inBlock hnext, run_settle hflow hcursor hws hnext fun p hp _ => (hpending p hp).2, hallowed, hfilter,
    hflow]
  rfl

theorem reads_blanks (hws : IsGap ws) (hnext : AtToken next) (hallowed : allowed ∨ '\n' ∈ ws) :
    Reads (.inBlock allowed ⟨ws ++ next, m⟩ ind T n) (.inBlock true ⟨next, m.past ws⟩ ind T n) :=
  reads_gap rfl rfl hws hnext hallowed nofun

/-- A block ends before a token that is not indented as deep. -/
theorem reads_blockEnd (hnext : AtToken next) {i : Nat} (hi : m.column < i) :
    Reads (.inBlock allowed ⟨next, m⟩ (i :: ind) T n)
      (.inBlock allowed ⟨next, m⟩ ind (⟨.blockEnd, m, m⟩ :: T) (n + 1)) := by
  refine .of_same (token_congr ?_) (Nat.le_refl _)
  rw [settle_inBlock hnext, settle_inBlock hnext]
  exact run_unwind_cons hi ind T n

/-! ### Items -/

theorem atToken_hyphen (rest : List Char) : AtToken ('-' :: ' ' :: rest) :=
  ⟨by simp [isInk], by simp, fun m => by simp [atDocumentMark]⟩

theorem run_tokenHere {f : Lex Unit} (hpeek : s.cursor.peek? = some x)
    (h : tokenFrom (s.flowLevel ≠ 0) s.cursor x = f) :
    tokenHere.run s = (f.run s).map fun result => (true, result.2) := by
  rw [tokenHere, run_bind_ok rfl]
  simp only [hpeek]
  rw [h]
  show (f.run s >>= fun _ => _) = _
  cases f.run s <;> rfl

theorem tokenFrom_hyphen (rest : List Char) (m : Mark) :
    tokenFrom false ⟨'-' :: ' ' :: rest, m⟩ '-' = blockEntry := by
  simp [tokenFrom, (atToken_hyphen rest).noMark m, peekAt?, endsWord, endsField]

/-- What the block of a token in a column makes of the open blocks, and whether it opens there. -/
def Opens (column : Nat) (ind ind' : List Nat) (opened : Bool) : Prop :=
  ∀ s : LexState, s.indents = ind → (openBlock column).run s = .ok (opened, { s with indents := ind' })

theorem opens_same (h : ind.head? = some column) : Opens column ind ind false := by
  rintro s rfl
  rw [openBlock, run_bind_ok rfl]
  simp only [h, Nat.lt_irrefl, decide_false, Bool.false_eq_true, if_false]
  rfl

theorem opens_deeper (h : ∀ i ∈ ind.head?, i < column) : Opens column ind (column :: ind) true := by
  rintro s rfl
  rw [openBlock, run_bind_ok rfl]
  cases hind : s.indents.head? with
  | none => rfl
  | some i =>
    simp only [h i hind, decide_true, if_true]
    rfl

/-- A hyphen is the mark of an item, after that of a sequence if it opens one. -/
theorem token_hyphen {ind' : List Nat} {opened : Bool} (hind : ∀ i ∈ ind.head?, i ≤ m.column)
    (hopens : Opens m.column ind ind' opened) :
    token.run (.inBlock true ⟨'-' :: ' ' :: rest, m⟩ ind T n) =
      .ok (true, .inBlock true ⟨' ' :: rest, m.past ['-']⟩ ind' (⟨.blockEntry, m, m.past ['-']⟩ ::
        (if opened then [⟨.blockSequenceStart, m, m⟩] else []) ++ T) (n + if opened then 2 else 1)) := by
  rw [token_inBlock (atToken_hyphen rest) hind]
  refine Eq.trans (run_tokenHere rfl (tokenFrom_hyphen rest m)) ?_
  have hmark : (blockMark .blockSequenceStart).run (.inBlock true ⟨'-' :: ' ' :: rest, m⟩ ind T n) =
      .ok ((), .inBlock true ⟨'-' :: ' ' :: rest, m⟩ ind' ((if opened then [⟨.blockSequenceStart, m, m⟩] else []) ++ T)
        (n + if opened then 1 else 0)) := by
    rw [blockMark, run_bind_ok rfl]
    refine Eq.trans (run_bind_ok (hopens _ rfl)) ?_
    cases opened <;> rfl
  rw [blockEntry, run_bind_ok hmark]
  cases opened <;> rfl

/-- A hyphen that is indented deeper opens a sequence. -/
theorem reads_sequenceStart (hind : ∀ i ∈ ind.head?, i < m.column) :
    Reads (.inBlock true ⟨'-' :: ' ' :: rest, m⟩ ind T n)
      (.inBlock true ⟨'-' :: ' ' :: rest, m⟩ (m.column :: ind) (⟨.blockSequenceStart, m, m⟩ :: T) (n + 1)) := by
  refine .of_same (Eq.trans (token_hyphen (fun i hi => Nat.le_of_lt (hind i hi)) (opens_deeper hind)) ?_)
    (Nat.le_refl _)
  exact (token_hyphen (by simp) (opens_same rfl)).symm

/-- After the mark of an item, its content is read from the next column but one. -/
theorem reads_hyphen (hind : ind.head? = some m.column) (hnext : AtToken next) :
    Reads (.inBlock true ⟨'-' :: ' ' :: next, m⟩ ind T n)
      (.inBlock true ⟨next, m.past ['-', ' ']⟩ ind (⟨.blockEntry, m, m.past ['-']⟩ :: T) (n + 1)) := by
  refine (Reads.of_token (token_hyphen (by simp [hind]) (opens_same hind)) (by simp [LexState.inBlock])).trans ?_
  have hspace : IsGap [' '] := by simp [IsGap, isGapChar]
  exact reads_blanks (m := m.past ['-']) hspace hnext (.inl rfl)

/-! ### Scalars -/

theorem tokenFrom_plain {c : Cursor} (hstart : startsPlain false x (c.peekAt? 1)) (hmark : c.atDocumentMark = false) :
    tokenFrom false c x = plain := by
  have hcases := hstart
  simp only [startsPlain, Bool.or_eq_true, Bool.and_eq_true, Bool.not_eq_true', beq_iff_eq, Bool.not_false,
    Bool.or_eq_false_iff, true_and] at hcases
  rcases hcases with ⟨-, hspecial⟩ | ⟨hsecond, rfl | rfl | rfl⟩
  · have hne : ∀ d ∈ "-?:,[]\x7b\x7d#&*!|>'\"%@\x60".toList, x ≠ d := by
      rintro d hd rfl
      exact absurd hd (by simpa using hspecial)
    simp at hne
    simp [tokenFrom, hmark, hne, hstart]
  all_goals simp [tokenFrom, hmark, hsecond, hstart]

theorem run_noteKey (cs : List Char) :
    noteKey.run (.inBlock allowed ⟨cs, m⟩ ind T n) = .ok ((), { LexState.inBlock allowed ⟨cs, m⟩ ind T n with
      pending := if allowed then [(0, ⟨n, ind.head? == some m.column, m⟩)] else [] }) := by
  cases allowed <;> rfl

theorem run_innerIndent (s : LexState) : innerIndent.run s = .ok (insideOf s.indents, s) := by
  rw [innerIndent, run_bind_ok rfl]
  cases h : s.indents with
  | nil => rfl
  | cons i indents => rfl

theorem run_plain_of {noted : LexState} (hnote : noteKey.run s = .ok ((), noted)) {scalar : ScannedScalar}
    (h : plainScalar (noted.flowLevel ≠ 0) (insideOf noted.indents) noted.cursor = (scalar, broken)) :
    plain.run s = .ok ((), { noted with
      cursor := scalar.after
      keyAllowed := broken
      tokens := ⟨.scalar (String.ofList scalar.text) .plain, noted.cursor.mark, scalar.stop⟩ :: noted.tokens
      count := noted.count + 1 }) := by
  rw [plain, run_bind_ok hnote, run_bind_ok rfl, run_bind_ok (run_innerIndent _), h]
  rfl

theorem run_plain (h : plainScalar false (insideOf ind) ⟨cs, m⟩ = (⟨text, stop, after⟩, broken)) :
    plain.run (.inBlock allowed ⟨cs, m⟩ ind T n) =
      .ok ((), .afterScalar allowed broken m after ind ⟨.scalar (String.ofList text) .plain, m, stop⟩ T n) :=
  run_plain_of (run_noteKey cs) h

theorem run_quoted {double : Bool} (h : quotedScalar double (step ⟨cs, m⟩) = .ok ⟨text, stop, after⟩) :
    (quoted double).run (.inBlock allowed ⟨cs, m⟩ ind T n) =
      .ok ((), .afterScalar allowed false m after ind
        ⟨.scalar (String.ofList text) (if double then .double else .single), m, stop⟩ T n) := by
  have hscan : ∀ s : LexState, (liftM (quotedScalar double (step ⟨cs, m⟩)) : Lex ScannedScalar).run s =
      .ok (⟨text, stop, after⟩, s) := by
    intro s
    rw [h]
    rfl
  rw [quoted, run_bind_ok (run_noteKey cs), run_bind_ok rfl, run_bind_ok rfl]
  show (liftM (quotedScalar double (step ⟨cs, m⟩)) >>= _ : Lex Unit).run _ = _
  rw [run_bind_ok (hscan _)]
  rfl

theorem startsPlain_append {w : List Char} (h : OpensPlain (x :: w)) (rest : List Char) :
    startsPlain false x (w ++ rest).head? := by
  have hstart := h.start x rfl
  cases w with
  | cons y w => exact hstart
  | nil =>
    have hx : (endsWord (some x) || "-?:,[]\x7b\x7d#&*!|>'\"%@\x60".toList.contains x) = false := by
      simpa [startsPlain, endsWord, endsField, endsLine] using hstart
    rw [startsPlain, hx]
    rfl

section Scalars

variable {least : Nat} {style : Style} {text written tail : List Char}

/-- A scalar is read by the step for its style. -/
theorem token_scalar (hspells : Spells least style text written) (htail : EndsScalar tail)
    (hind : ∀ i ∈ ind.head?, i ≤ m.column) {after : Cursor} {broken : Bool}
    (hplain : style = .plain → plainScalar false (insideOf ind) ⟨written ++ tail, m⟩ =
      (⟨text, m.past written, after⟩, broken))
    (hquoted : style ≠ .plain → after = ⟨tail, m.past written⟩ ∧ broken = false) :
    token.run (.inBlock allowed ⟨written ++ tail, m⟩ ind T n) =
      .ok (true, .afterScalar allowed broken m after ind
        ⟨.scalar (String.ofList text) style, m, m.past written⟩ T n) := by
  have hat := hspells.atToken htail
  have hquote : tail.head? ≠ some '\'' := by rcases htail with h | h <;> rw [h] <;> decide
  rw [token_inBlock hat hind]
  cases hspells with
  | @plain w h hopens =>
    obtain ⟨first, more⟩ := w
    obtain ⟨x, first, rfl⟩ := exists_cons_of_ne_nil h.first.nonempty
    obtain ⟨rest, hrest⟩ : ∃ rest, (Words.mk (x :: first) more).written id ++ tail = x :: (first ++ rest) :=
      ⟨_, by simp [Words.written]; rfl⟩
    have hfrom : tokenFrom false ⟨(Words.mk (x :: first) more).written id ++ tail, m⟩ x = Lex.plain := by
      refine tokenFrom_plain ?_ (hat.noMark m)
      rw [hrest]
      exact startsPlain_append hopens rest
    refine Eq.trans (run_tokenHere (by rw [LexState.inBlock, hrest]; rfl) hfrom) ?_
    rw [run_plain (hplain rfl)]
    rfl
  | @single w h t =>
    obtain ⟨rfl, rfl⟩ := hquoted (by decide)
    have hscan := quotedScalar_words h t hquote (m.past ['\''])
    refine Eq.trans (run_tokenHere (f := quoted false) rfl rfl) ?_
    rw [cons_append, run_quoted (by rw [step_cons (.inl rfl)]; simpa using hscan)]
    rfl
  | @double w h hquotes hescape =>
    obtain ⟨rfl, rfl⟩ := hquoted (by decide)
    have hscan := quotedScalar_word h hquotes hescape tail (m.past ['"'])
    refine Eq.trans (run_tokenHere (f := quoted true) rfl rfl) ?_
    rw [cons_append, run_quoted (by rw [step_cons (.inl rfl)]; simpa using hscan)]
    rfl

/-- A key is read up to its colon. -/
theorem token_keyScalar (hspells : Spells least style text written) (hleast : 1 ≤ least)
    (hinside : insideOf ind ≤ least) (hind : ∀ i ∈ ind.head?, i ≤ m.column) (hrest : endsWord rest.head?) :
    token.run (.inBlock allowed ⟨written ++ ':' :: rest, m⟩ ind T n) =
      .ok (true, .afterScalar allowed false m ⟨':' :: rest, m.past written⟩ ind
        ⟨.scalar (String.ofList text) style, m, m.past written⟩ T n) := by
  refine token_scalar hspells (.inl rfl) hind (fun hstyle => ?_) fun _ => ⟨rfl, rfl⟩
  cases hspells with
  | plain h => exact plainScalar_key h hleast hinside (insideOf_le hind) hrest
  | single | double => cases hstyle

/-- A scalar that is no key is read up to the end of its block. -/
theorem reads_scalar (hspells : Spells least style text written) (hleast : 1 ≤ least)
    (hinside : insideOf ind ≤ least) (hind : ∀ i ∈ ind.head?, i ≤ m.column)
    (hkey : allowed → ind.head? ≠ some m.column) (hws : IsGap ws) (hnext : AtToken next)
    (hcolumn : (m.past (written ++ '\n' :: ws)).column < insideOf ind) :
    Reads (.inBlock allowed ⟨written ++ ('\n' :: ws ++ next), m⟩ ind T n)
      (.inBlock true ⟨next, m.past (written ++ '\n' :: ws)⟩ ind
        (⟨.scalar (String.ofList text) style, m, m.past written⟩ :: T) (n + 1)) := by
  have hne : 0 < written.length := length_pos_iff.2 hspells.ne_nil
  have hgap : IsGap ('\n' :: ws) := forall_mem_cons.2 ⟨rfl, hws⟩
  -- the scalar stands on an earlier line than what follows, so it is not a key of it
  have hline : m.line < (m.past (written ++ '\n' :: ws)).line := by
    rw [← Mark.past_past]
    exact Nat.lt_of_le_of_lt (Mark.line_le_past m hspells.tidy) (Mark.line_lt_past_newline _ hws.tidy)
  have hstale : ∀ p ∈ (if allowed then [(0, ⟨n, ind.head? == some m.column, m⟩)] else [] : List (Nat × PendingKey)),
      p.2.isStale (m.past (written ++ '\n' :: ws)) ∧ p.2.required = false := by
    intro p hp
    cases allowed with
    | false => cases hp
    | true =>
      obtain rfl : p = _ := mem_singleton.1 hp
      refine ⟨?_, by simpa using hkey rfl⟩
      simp [PendingKey.isStale, Nat.ne_of_lt hline]
  by_cases hstyle : style = .plain
  · have hscan : plainScalar false (insideOf ind) ⟨written ++ ('\n' :: ws ++ next), m⟩ =
        (⟨text, m.past written, ⟨next, m.past (written ++ '\n' :: ws)⟩⟩, true) := by
      cases hspells with
      | plain h => exact plainScalar_words h hleast hinside (insideOf_le hind) hws hnext hcolumn
      | single | double => cases hstyle
    have htoken : token.run (.inBlock allowed ⟨written ++ ('\n' :: ws ++ next), m⟩ ind T n) = _ :=
      token_scalar hspells (.inr rfl) hind (fun _ => hscan) fun h => absurd hstyle h
    have hcursor : (LexState.afterScalar allowed true m ⟨next, m.past (written ++ '\n' :: ws)⟩ ind
        ⟨.scalar (String.ofList text) style, m, m.past written⟩ T n).cursor =
          ⟨[] ++ next, m.past (written ++ '\n' :: ws)⟩ := rfl
    have hread := reads_gap rfl hcursor nofun hnext (.inl rfl) hstale
    refine (Reads.of_token htoken ?_).trans hread
    simp [LexState.inBlock, LexState.afterScalar]
    omega
  · have htoken : token.run (.inBlock allowed ⟨written ++ ('\n' :: ws ++ next), m⟩ ind T n) = _ :=
      token_scalar hspells (.inr rfl) hind (fun h => absurd h hstyle) fun _ => ⟨rfl, rfl⟩
    have hread : Reads (.afterScalar allowed false m ⟨'\n' :: ws ++ next, m.past written⟩ ind
        ⟨.scalar (String.ofList text) style, m, m.past written⟩ T n) _ :=
      reads_gap rfl rfl hgap hnext (.inr mem_cons_self) (by rw [Mark.past_past]; exact hstale)
    rw [Mark.past_past] at hread
    refine (Reads.of_token htoken ?_).trans hread
    simp [LexState.inBlock, LexState.afterScalar]
    omega

/-! ### Keys -/

theorem atToken_colon (rest : List Char) : AtToken (':' :: rest) :=
  ⟨by simp [isInk], by simp, fun m => by simp [atDocumentMark]⟩

theorem tokenFrom_colon (hrest : endsWord rest.head?) : tokenFrom false ⟨':' :: rest, m⟩ ':' = value := by
  simp [tokenFrom, peekAt?, hrest]

variable {t : Token} {s s' : LexState}

theorem run_insertBefore {number later : Nat} (h : s.count = number + later) (kind : TokenKind) (mark : Mark) :
    (insertBefore number kind mark).run s = .ok ((), { s with
      tokens := s.tokens.take later ++ ⟨kind, mark, mark⟩ :: s.tokens.drop later
      count := s.count + 1 }) := by
  have hlater : s.count - number = later := by omega
  rw [← hlater]
  rfl

def keyTokens (style : Style) (text written : List Char) (m : Mark) : List Token :=
  [⟨.key, m, m⟩, ⟨.scalar (String.ofList text) style, m, m.past written⟩,
    ⟨.value, m.past written, m.past (written ++ [':'])⟩]

/-- The colon after a key on the same line is that of its value. -/
theorem token_colon (hline : InLine written) (hlength : written.length ≤ maxKeyLength)
    (hind : ∀ i ∈ ind.head?, i ≤ m.column) (hrest : endsWord rest.head?)
    (hs : s = .afterScalar true false m ⟨':' :: rest, m.past written⟩ ind t T n) (h : value.run s = .ok ((), s')) :
    token.run s = .ok (true, s') := by
  have hmark := Mark.past_inLine m hline
  have hfresh : PendingKey.isStale (m.past written) ⟨n, ind.head? == some m.column, m⟩ = false := by
    simp only [PendingKey.isStale, hmark, bne_self_eq_false, Bool.false_or, decide_eq_false_iff_not]
    omega
  have hpending : ∀ p ∈ s.pending, p.2.isStale (m.past written) = false := by
    rw [hs]
    exact forall_mem_singleton.2 hfresh
  have hsettle : settle.run s = .ok ((), s) := by
    have hcursor : s.cursor = ⟨[] ++ ':' :: rest, m.past written⟩ := by rw [hs]; rfl
    have hunwind : (unwind (some (m.past written).column)).run s = .ok ((), s) := by
      subst hs
      refine run_unwind_none rfl fun i hi => Nat.le_trans (hind i hi) ?_
      rw [hmark]
      exact Nat.le_add_right _ _
    rw [run_settle (by rw [hs]; rfl) hcursor nofun (atToken_colon rest)
      fun p hp hstale => absurd hstale (by simp [hpending p hp])]
    refine Eq.trans ?_ hunwind
    simp [hs, LexState.afterScalar, hfresh]
  rw [token, run_bind_ok hsettle]
  subst hs
  refine Eq.trans (run_tokenHere rfl (tokenFrom_colon hrest)) ?_
  rw [h]
  rfl

/-- The colon of a key puts the key's mark in place, and that of a mapping if it opens one. -/
theorem run_value {m' : Mark} {ind' : List Nat} {opened : Bool} (hopens : Opens m.column ind ind' opened) :
    value.run (.afterScalar true false m ⟨':' :: rest, m'⟩ ind t T n) =
      .ok ((), .inBlock false ⟨rest, m'.past [':']⟩ ind' (⟨.value, m', m'.past [':']⟩ :: t :: ⟨.key, m, m⟩ ::
        (if opened then [⟨.blockMappingStart, m, m⟩] else []) ++ T) (n + if opened then 4 else 3)) := by
  rw [value, run_bind_ok rfl]
  show (do
    set { LexState.afterScalar true false m ⟨':' :: rest, m'⟩ ind t T n with pending := [] }
    insertBefore n .key m
    if ← openBlock m.column then insertBefore n .blockMappingStart m
    allowKey false
    take .value 1 : Lex Unit).run _ = _
  rw [run_bind_ok rfl, run_bind_ok (run_insertBefore rfl _ _), run_bind_ok (hopens _ rfl)]
  cases opened with
  | false => rfl
  | true =>
    rw [if_pos rfl, run_bind_ok (run_insertBefore (show n + 1 + 1 = n + 2 from rfl) _ _)]
    rfl

/-- A scalar that may be a key: it is short and stands on one line. -/
structure IsKey (style : Style) (text written : List Char) : Prop where
  spells : ∀ least, Spells least style text written
  inLine : InLine written
  length_le : written.length ≤ maxKeyLength

/-- A key is read in two steps, up to its colon and with it. -/
theorem token_key (hkey : IsKey style text written) (hind : ∀ i ∈ ind.head?, i ≤ m.column) (hrest : endsWord rest.head?)
    (h : value.run (.afterScalar true false m ⟨':' :: rest, m.past written⟩ ind
      ⟨.scalar (String.ofList text) style, m, m.past written⟩ T n) = .ok ((), s')) :
    ∃ s, token.run (.inBlock true ⟨written ++ ':' :: rest, m⟩ ind T n) = .ok (true, s) ∧
      s.cursor.rest = ':' :: rest ∧ token.run s = .ok (true, s') :=
  ⟨_, token_keyScalar (hkey.spells (insideOf ind + 1)) (by omega) (by omega) hind hrest, rfl,
    token_colon hkey.inLine hkey.length_le hind hrest rfl h⟩

/-- A key and its colon are read in an open mapping. -/
theorem reads_key (hkey : IsKey style text written) (hind : ind.head? = some m.column)
    (hrest : endsWord rest.head?) :
    Reads (.inBlock true ⟨written ++ ':' :: rest, m⟩ ind T n)
      (.inBlock false ⟨rest, m.past (written ++ [':'])⟩ ind ((keyTokens style text written m).reverse ++ T)
        (n + 3)) := by
  obtain ⟨s, hscalar, hs, hcolon⟩ := token_key (T := T) (n := n) hkey (by simp [hind]) hrest
    (run_value (opens_same hind))
  rw [Mark.past_past] at hcolon
  refine (Reads.of_token hscalar ?_).trans (Reads.of_token hcolon ?_)
  · have := length_pos_iff.2 (hkey.spells 1).ne_nil
    simp [LexState.inBlock, hs]
    omega
  · simp [LexState.inBlock, hs]

/-- A key that is indented deeper opens a mapping. -/
theorem reads_mappingStart (hkey : IsKey style text written) (hind : ∀ i ∈ ind.head?, i < m.column)
    (hrest : endsWord rest.head?) :
    Reads (.inBlock true ⟨written ++ ':' :: rest, m⟩ ind T n)
      (.inBlock true ⟨written ++ ':' :: rest, m⟩ (m.column :: ind) (⟨.blockMappingStart, m, m⟩ :: T) (n + 1)) := by
  obtain ⟨s, hscalar, -, hcolon⟩ := token_key (T := T) (n := n) hkey (fun i hi => Nat.le_of_lt (hind i hi)) hrest
    (run_value (opens_deeper hind))
  obtain ⟨s', hscalar', -, hcolon'⟩ := token_key (T := ⟨.blockMappingStart, m, m⟩ :: T) (n := n + 1) hkey
    (show ∀ i ∈ (m.column :: ind).head?, i ≤ m.column by simp) hrest (run_value (opens_same rfl))
  -- the mark of the mapping is put in place with the colon, so both states agree after two steps
  refine ⟨0, by simp [LexState.inBlock], fun fuel => ?_⟩
  rw [Nat.zero_add]
  match fuel with
  | 0 => rfl
  | 1 =>
    rw [tokens, run_bind_ok hscalar, run_bind_ok hscalar']
    rfl
  | fuel + 2 =>
    rw [tokens, run_bind_ok hscalar, run_bind_ok hscalar', if_pos rfl, tokens, run_bind_ok hcolon,
      run_bind_ok hcolon']
    rfl

/-! ### Values on the line of their key -/

/-- A space before a value changes nothing. -/
theorem reads_space (hnext : AtToken next) :
    Reads (.inBlock false ⟨' ' :: next, m⟩ ind T n) (.inBlock false ⟨next, m.past [' ']⟩ ind T n) := by
  have hspace : IsGap [' '] := by simp [IsGap, isGapChar]
  have hcursor : (LexState.inBlock false ⟨' ' :: next, m⟩ ind T n).cursor = ⟨[' '] ++ next, m⟩ := rfl
  refine .of_same (token_congr ?_) (by simp [LexState.inBlock])
  rw [settle_inBlock hnext, run_settle rfl hcursor hspace hnext (forall_mem_nil _)]
  rfl

/-- A sequence cannot start on the line of its key. -/
theorem fails_hyphen (hind : ∀ i ∈ ind.head?, i ≤ m.column) :
    Fails (.inBlock false ⟨'-' :: ' ' :: rest, m⟩ ind T n) := by
  refine .of_token ?_
  rw [token_inBlock (atToken_hyphen rest) hind]
  exact Eq.trans (run_tokenHere rfl (tokenFrom_hyphen rest m)) rfl

/-- A mapping cannot start on the line of its key. -/
theorem fails_key (hkey : IsKey style text written) (hind : ∀ i ∈ ind.head?, i ≤ m.column)
    (hrest : endsWord rest.head?) : Fails (.inBlock false ⟨written ++ ':' :: rest, m⟩ ind T n) := by
  have hscalar : token.run (.inBlock false ⟨written ++ ':' :: rest, m⟩ ind T n) = _ :=
    token_keyScalar (hkey.spells (insideOf ind + 1)) (by omega) (by omega) hind hrest
  have hind' : ∀ i ∈ ind.head?, i ≤ (m.past written).column := by
    intro i hi
    rw [Mark.past_inLine m hkey.inLine]
    exact Nat.le_trans (hind i hi) (Nat.le_add_right _ _)
  refine (Reads.of_token hscalar ?_).fails (.of_token ?_)
  · have := length_pos_iff.2 (hkey.spells 1).ne_nil
    simp [LexState.inBlock, LexState.afterScalar]
    omega
  · show token.run (.inBlock false ⟨':' :: rest, m.past written⟩ ind _ (n + 1)) = _
    rw [token_inBlock (atToken_colon rest) hind']
    exact Eq.trans (run_tokenHere rfl (tokenFrom_colon hrest)) rfl

end Scalars

end Blocks

/-! ## Whole texts -/

/-- At the end of the text the outermost block ends, and the stream. -/
theorem run_tokens_end {i : Nat} (hi : i ≤ m.column) (T : List Token) (n fuel : Nat) :
    ∃ s, (tokens (fuel + 1)).run (.inBlock true ⟨[], m⟩ [i] T n) = .ok ((), s) ∧
      s.tokens = ⟨.streamEnd, m, m⟩ :: ⟨.blockEnd, m, m⟩ :: T := by
  have hend : AtToken [] := ⟨by simp, by simp, fun _ => rfl⟩
  have htoken : token.run (.inBlock true ⟨[], m⟩ [i] T n) = _ := token_inBlock hend (by simpa using hi)
  refine ⟨{ LexState.inBlock true ⟨[], m⟩ [] (⟨.streamEnd, m, m⟩ :: ⟨.blockEnd, m, m⟩ :: T) (n + 2) with
    pending := [] }, ?_, rfl⟩
  rw [tokens, run_bind_ok (htoken.trans rfl)]
  rfl

end Lex

theorem isAllowed_of_tidy {c : Char} (h : isInLine c ∨ c = '\n') : isAllowed c := by
  rcases h with h | rfl
  · rcases Bool.or_eq_true_iff.1 h with h | h
    · obtain rfl := eq_of_beq h
      rfl
    · simp only [isInk, Bool.and_eq_true, decide_eq_true_eq] at h
      have hlow : 33 ≤ c.toNat := UInt32.le_iff_toNat_le.1 (Char.le_def.1 h.1)
      have hhigh : c.toNat ≤ 126 := UInt32.le_iff_toNat_le.1 (Char.le_def.1 h.2)
      have hrange : (0x20 ≤ c.toNat && c.toNat ≤ 0x7e) = true := by
        simp only [Bool.and_eq_true, decide_eq_true_eq]
        omega
      simp [isAllowed, hrange]
  · rfl

variable {cs : List Char}

/-- The tokens of a tidy text that is one block collection. -/
theorem lex_of_reads (hcs : Tidy cs) {m : Mark} {i : Nat} (hi : i ≤ m.column) {T : List Token} {n : Nat}
    (h : Lex.Reads (.inBlock true (.ofText cs) [] [] 0) (.inBlock true ⟨[], m⟩ [i] T n)) :
    lex (String.ofList cs) = .ok (T.reverse ++ [⟨.blockEnd, m, m⟩, ⟨.streamEnd, m, m⟩]) := by
  have hallowed : cs.all isAllowed = true := all_eq_true.2 fun c hc => isAllowed_of_tidy (hcs c hc)
  obtain ⟨steps, hsteps, hread⟩ := h
  have hsteps : steps ≤ cs.length := hsteps
  obtain ⟨s, hend, htokens⟩ := Lex.run_tokens_end hi T n (cs.length + 1 - steps)
  have hrun : (Lex.tokens (cs.length + 2)).run { cursor := .ofText cs } = .ok ((), s) := by
    have hfuel : cs.length + 2 = steps + (cs.length + 1 - steps + 1) := by omega
    rw [hfuel]
    exact (hread _).trans hend
  rw [lex, String.toList_ofList, hallowed]
  show ((Lex.tokens (cs.length + 2)).run { cursor := .ofText cs } >>= _) = _
  rw [hrun]
  show Except.ok s.tokens.reverse = _
  rw [htokens]
  simp

/-- A text that the lexer fails on has no tokens. -/
theorem lex_of_fails (h : Lex.Fails (.inBlock true (.ofText cs) [] [] 0)) :
    lex (String.ofList cs) = .error .malformed := by
  obtain ⟨steps, hsteps, hfail⟩ := h
  have hsteps : steps ≤ cs.length + 1 := hsteps
  have hrun : (Lex.tokens (cs.length + 2)).run { cursor := .ofText cs } = .error .malformed := by
    have hfuel : cs.length + 2 = steps + (cs.length + 2 - steps) := by omega
    rw [hfuel]
    exact hfail _
  rw [lex, String.toList_ofList]
  cases hallowed : cs.all isAllowed with
  | false => rfl
  | true =>
    show ((Lex.tokens (cs.length + 2)).run { cursor := .ofText cs } >>= _) = _
    rw [hrun]
    rfl

end ServerlessTaint.Yaml
