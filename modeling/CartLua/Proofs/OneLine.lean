import CartLua.Proofs.LayoutIndependence
import CartLua.Proofs.ProgramLayout
import CartLua.Proofs.StatementReading
/-!
# If statements on one line

An if statement without a `then` ends with its line, as line ends are shown while its clause is read. They are shown from
the second token behind the condition on: the first one has been read by then. So the first statement of the clause may
stand on a later line, and so may a statement behind an `end`, which can close a block with line ends hidden. All others
start on the line of the token before them.
-/

namespace CartLua

open Parse Session List

variable {c : Settings} {s t u v w : Session} {ts : List Token} {front back : Block}

theorem Cursor.lines_of_tokens {mode : Encoding} {c : Cursor} (h : c.tokens mode = .ok ts) :
    (ts.Pairwise fun a b => a.span.stop.line ≤ b.span.start.line) ∧ ∀ t ∈ ts, c.position.line ≤ t.span.start.line := by
  induction c, ts, h using Cursor.tokens_induction with
  | done c eof next hscan =>
    obtain ⟨-, rfl, n, rfl⟩ := scan_done hscan
    exact ⟨pairwise_singleton .., forall_mem_singleton.mpr (c.line_skip n)⟩
  | token c t next others hscan _ ih =>
    obtain ⟨n, -, -, -, -, lexeme, -, -, -, -, rfl, hspan⟩ := scan_token hscan
    have hstart : c.position.line ≤ t.span.start.line := by
      rw [hspan]
      exact c.line_skip n
    have hstop : ∀ u ∈ others, t.span.stop.line ≤ u.span.start.line := by
      rw [hspan]
      exact ih.2
    have hproper : t.span.start.line ≤ t.span.stop.line := by
      rw [hspan]
      exact (c.skip n).line_skip _
    refine ⟨pairwise_cons.mpr ⟨hstop, ih.1⟩, forall_mem_cons.mpr ⟨hstart, fun u hu => ?_⟩⟩
    exact hstart.trans (hproper.trans (hstop u hu))

/-- A statement of a block is read behind those before it, with line ends shown. If there are any, tokens have been used
up. -/
theorem Derives.exists_reads {levels : Nat} {stmt : Stmt} (h : Derives c s (.block levels (front ++ stmt :: back)) t) :
    ∃ u words cues, Reads c true true words cues s u ∧ Reaches c u t ∧ stmt.span.start = u.here ∧
      u.window.token.isNewline = false ∧ (front ≠ [] → s.Orderly c → u.remaining c < s.remaining c) := by
  generalize hphrase : Phrase.block levels (front ++ stmt :: back) = phrase at h
  induction h generalizing front with
  | block hline hstmt hspent _ hbody _ ih =>
    cases front with
    | nil =>
      cases hphrase
      exact ⟨_, _, _, .refl, hstmt.reaches.trans hbody.reaches, hstmt.lies.2, hline, absurd rfl⟩
    | cons =>
      cases hphrase
      obtain ⟨u, _, _, hread, hreach, hstart, hline, -⟩ := ih rfl
      refine ⟨u, _, _, (hstmt.reads true).trans hread, hreach, hstart, hline, fun _ hs => ?_⟩
      exact (hread.reaches.remaining_le (hstmt.reaches.orderly hs)).trans_lt (hspent hs)
  | emptyStatement hkind hadvance _ ih =>
    cases hphrase
    obtain ⟨u, _, _, hread, hreach, hstart, hline, hspent⟩ := ih rfl
    have his : Token.is _ Symbol.semicolon = true := Token.is_iff_kind.mpr hkind
    have hskip : Reads c true true _ _ _ _ := reads_pass rfl his hadvance
    refine ⟨u, _, _, hskip.trans hread, hreach, hstart, hline, fun hfront hs => ?_⟩
    exact (hspent hfront (hskip.reaches.orderly hs)).trans_le (hskip.reaches.remaining_le hs)
  | givenUp hfault _ ih =>
    cases hphrase
    obtain ⟨u, _, _, hread, hreach, hstart, hline, hspent⟩ := ih rfl
    have hskip : Reads c true true _ _ _ _ := hfault.reads
    refine ⟨u, _, _, hskip.trans hread, hreach, hstart, hline, fun hfront hs => ?_⟩
    exact (hspent hfront (hskip.reaches.orderly hs)).trans_le (hskip.reaches.remaining_le hs)
  | endBlock => simp at hphrase
  | _ => cases hphrase

theorem Session.Plain.remaining_eq (hs : s.Plain) (ht : t.Plain) (hwindow : t.window = s.window) :
    t.remaining c = s.remaining c := by
  simp [remaining, windows, hwindow, hs.alone, ht.alone]

theorem Session.Follows.adjacent (hs : s.Follows ts) (hsolid : s.window.token.isSolid = true)
    (hadvance : advance.run c s = .ok () t) {after : Bool} {words : List Word} {cues : List Token → List Cue}
    (h : Account after words cues t u) (hu : u.Follows ts) (hline : u.window.token.isNewline = false) :
    ∃ before behind, ts = before ++ u.window.previous :: u.window.token :: behind := by
  obtain ⟨rest, hrest, ⟨front, rfl⟩, -⟩ := hs.stream.resolve_left (by simp [(Token.isSolid_iff.mp hsolid).1])
  obtain ⟨behind, hbehind⟩ : ∃ behind, u.window.stream = .ok (u.window.token :: behind) := by
    cases hend : u.window.token.isEof with
    | true => exact ⟨[], by rw [Window.stream, if_pos hend]⟩
    | false =>
      obtain ⟨rest, hrest, -⟩ := hu.stream.resolve_left (by simp [hend])
      obtain ⟨tail, rfl⟩ := Window.stream_solid (Token.isSolid_iff.mpr ⟨hend, hline⟩) hrest
      exact ⟨_, hrest⟩
  obtain ⟨hnone, rfl⟩ := advance_eq ⟨hs.alone, hs.settled.plain⟩ hadvance
  obtain ⟨used, hused, -, hprevious, -⟩ := h.used _ hbehind
  rw [Window.next_stream hs.settled.plain hsolid hnone, hused] at hrest
  cases hrest
  rw [Window.next_previous] at hprevious
  obtain rfl | ⟨before, last, rfl⟩ := eq_nil_or_concat used
  · exact ⟨front, behind, by simp [hprevious]⟩
  · exact ⟨front ++ s.window.token :: before, behind, by simp [hprevious]⟩

/-- What is said below of a program, for a single if statement and the tokens of the text. -/
theorem oneLine_of_derives {levels : Nat} {condition : Expr} {stmt : Stmt} {span span' : Span}
    {last : List Clause} (hs : s.Follows ts) (horderly : s.Orderly c) (hclean : t.Clean)
    (h : Derives c s (.proper levels (.branch (.ifThen condition (front ++ stmt :: back) span :: last) true span')) t) :
    ∃ before a b behind, ts = before ++ a :: b :: behind ∧ b.span.start = stmt.span.start ∧
      (b.span.start.line ≤ a.span.stop.line ∨ a.is Keyword.endKw = true ∨ front = [] ∧ a.isSymbol .rightParen = true) := by
  have hplain : s.Plain := ⟨hs.alone, hs.settled.plain⟩
  cases h with
  | @oneLineIf _ _ _ _ _ _ _ s₁ s₂ s₃ s₄ s₅ s₆ s₇ s₈ _ hopen hagain hcondition hparen hshow hbody hfinish hlast hback
      hfinish' =>
    cases hbody with
    | @scopedBlock _ _ _ _ _ first _ _ _ hblock hscope hbody hscope' hblock' =>
      obtain ⟨u, _, _, hread, hreach, hstart, hline, hspent⟩ := hbody.exists_reads
      obtain ⟨hkind, opened, hmark, hadvance⟩ := hopen
      have hu : u.Clean := hclean.of_reaches <| hreach.trans <| (reaches hscope').trans <| (reaches hblock').trans <|
        (reaches hfinish).trans <| hlast.reaches.trans <| (reaches hback).trans (reaches hfinish')
      have hthere : Reaches c s s₁ := (reaches hmark).trans (reaches hadvance)
      -- The condition and what stands before the statement, from the token behind the keyword on.
      have hfirst : Reads c s₁.window.newlines s₁.window.newlines _ _ _ _ := (reads_silent hagain).trans (hcondition.reads _)
      have hopens : Reads c true true _ _ _ _ := (reads_openBlock hblock).trans (reads_silent hscope)
      have haccounts := hfirst.toAccounts.trans ((accounts_setNewlines hshow).trans (hopens.trans hread).toAccounts)
      have haccount := haccounts.account (hthere.plain hplain) hu rfl
      have hsolid : opened.window.token.isSolid = true := by
        rw [Silent.window hmark]
        exact isSolid_of_is (Token.is_iff_kind.mpr hkind)
      obtain ⟨before, behind, hts⟩ := ((reaches hmark).follows hs).adjacent hsolid hadvance haccount
        ((hthere.trans haccounts.reaches).follows hs) hline
      refine ⟨before, _, _, behind, hts, hstart.symm, ?_⟩
      have hinner : Reaches c s first := hthere.trans (hfirst.reaches.trans ((reaches hshow).trans hopens.reaches))
      have hwindow : first.window = (s₃.window.setNewlines true).2 := by
        rw [← window_setNewlines ((hthere.trans hfirst.reaches).plain hplain) hshow]
        cases hblock
        cases hscope
        rfl
      obtain hsame | hjoined := hread.lines (hinner.plain hplain) hu (hwindow ▸ Window.setNewlines_newlines _ _)
      · have hfront : front = [] := by
          by_contra hfront
          have hstill := (hinner.plain hplain).remaining_eq (c := c) (hread.reaches.plain (hinner.plain hplain)) hsame
          exact (hspent hfront (hinner.orderly horderly)).ne hstill
        rw [hsame, hwindow, Window.setNewlines_previous]
        exact .inr (.inr ⟨hfront, hparen⟩)
      · exact (hjoined haccount.newlines).resolve_left (by simp [hline]) |>.imp_right .inl

namespace Program

variable {options : Options} {source name : String}

theorem follows_start (halone : IsAlone options source) (htokens : tokenize options.encoding source 0 = .ok ts) :
    (start options source name).Follows ts := by
  obtain ⟨hnone, -, hlevel⟩ := Window.start_level (m := {}) htokens htokens ⟨rfl, rfl⟩ halone halone
  obtain ⟨_, -, hcoming, -⟩ := hlevel.coming
  exact ⟨rfl, hlevel.first, ⟨_, hcoming⟩, .inr ⟨ts, (Window.start_stream hnone).trans htokens, suffix_rfl, .inl rfl⟩⟩

/-- **An if statement on one line ends with its line.** In a program without include lines and syntax faults, every
statement of the first clause starts at a token that stands on the line on which the token before it ends. That token may
be an `end`, or the parenthesis that closes the condition, and only behind these a statement may stand on a later line. -/
theorem line_of_oneLine (options : Options) (source name : String) (halone : IsAlone options source)
    (hclean : ∀ d ∈ (parse options source name).errors, d.fault.isFlow = true) (s : Stmt) (condition : Expr)
    (front back : Block) (stmt : Stmt) (span span' : Span) (last : List Clause) (hs : s ∈ (parse options source name).body)
    (hnode : Relation.ReflTransGen Node.Holds (.statement s)
      (.statement (.branch (.ifThen condition (front ++ stmt :: back) span :: last) true span'))) :
    ∃ before a b behind, tokenize options.encoding source 0 = .ok (before ++ a :: b :: behind) ∧
      b.span.start = stmt.span.start ∧ (b.span.start.line = a.span.stop.line ∨ a.is Keyword.endKw = true ∨
        front = [] ∧ a.isSymbol .rightParen = true) := by
  obtain ⟨levels, u, v, w, hu, hstmt, hv, herrors⟩ := exists_derives hs hnode rfl
  have hw : w.Clean := fun d hd => hclean d (herrors ▸ hd)
  obtain ⟨ts, htokens, -⟩ := account_parse halone hclean
  obtain ⟨before, a, b, behind, rfl, hstart, hplace⟩ := oneLine_of_derives (hu.follows (follows_start halone htokens))
    (hu.orderly (orderly_start options source name)) (hw.of_reaches hv) hstmt
  have hline : a.span.stop.line ≤ b.span.start.line :=
    (List.pairwise_append.mp (Cursor.lines_of_tokens htokens).1).2.1 |> List.pairwise_cons.mp |>.1 b (List.mem_cons_self ..)
  exact ⟨before, a, b, behind, htokens, hstart, hplace.imp_left fun hle => hle.antisymm hline⟩

/-- An if statement on one line, whose clause goes on behind a table with line ends. -/
def folded : String := "if(a)x=\x7b\n1\x7d;y=2 z=3\nw=4"

def isFolded : Block → Bool
  | [.branch [.ifThen _ [_, _, _] _] true _, _] => true
  | _ => false

theorem line_of_oneLine_folded : IsAlone {} folded ∧ (parse {} folded "main.lua").errors = [] ∧
    ∃ condition first stmt third span span',
      .branch [.ifThen condition [first, stmt, third] span] true span' ∈ (parse {} folded "main.lua").body ∧
      ∃ before a b behind, tokenize .discard folded 0 = .ok (before ++ a :: b :: behind) ∧
        b.span.start = stmt.span.start ∧ (b.span.start.line = a.span.stop.line ∨ a.is Keyword.endKw = true ∨
          [first] = [] ∧ a.isSymbol .rightParen = true) := by
  have halone : IsAlone {} folded := by
    unfold IsAlone
    decide +kernel
  have herrors : (parse {} folded "main.lua").errors = [] := by decide +kernel
  have hshape : isFolded (parse {} folded "main.lua").body = true := by decide +kernel
  unfold isFolded at hshape
  split at hshape
  next hbody =>
    have hmem := hbody ▸ List.mem_cons_self ..
    exact ⟨halone, herrors, _, _, _, _, _, _, hmem, line_of_oneLine {} folded "main.lua" halone
      (isFlow_of_errors_nil herrors) _ _ [_] _ _ _ _ [] hmem .refl⟩
  next => cases hshape

def isLate : Block → Bool
  | [.branch [.ifThen condition [stmt] _] true _] => condition.span.stop.line == 1 && stmt.span.start.line == 2
  | _ => false

/-- The first statement of the clause may stand on the line behind the condition. -/
theorem later_line_of_oneLine : (parse {} "if (x)\ny=1" "main.lua").errors = [] ∧
    ∃ condition stmt span span', (parse {} "if (x)\ny=1" "main.lua").body =
      [.branch [.ifThen condition [stmt] span] true span'] ∧ condition.span.stop.line = 1 ∧ stmt.span.start.line = 2 := by
  have hshape : isLate (parse {} "if (x)\ny=1" "main.lua").body = true := by decide +kernel
  unfold isLate at hshape
  split at hshape
  next hbody =>
    obtain ⟨hstop, hstart⟩ := Bool.and_eq_true_iff.mp hshape
    exact ⟨by decide +kernel, _, _, _, _, hbody, eq_of_beq hstop, eq_of_beq hstart⟩
  next => cases hshape

end Program

end CartLua
