import CartLua.Proofs.Attachment
import CartLua.Proofs.Containment
import CartLua.Proofs.Relexing
import CartLua.Proofs.Splice
/-!
# An included document stands in its place

A program is read that consists of a text, an include line and another text behind a semicolon. Its body has the
statements of the first text, the include line, the statements of the document that the line names, and the statements of
the second text, one behind the other. All of them are as they are read alone.
-/

namespace CartLua

open Token Cartridge List

namespace Cursor

variable {more : List Char}

theorem scan_include (mode : Encoding) (more : List Char) (e : Cursor) (hrest : e.rest = []) :
    ∃ line behind, (e.extend ('\n' :: ("#include f.lua\n;".toList ++ more))).scan mode = .token line behind ∧
      line.kind = .directive ∧ line.text = "f.lua" ∧ e.position.line < line.span.start.line ∧
      behind.rest = '\n' :: ';' :: more := by
  generalize hlong : e.extend ('\n' :: ("#include f.lua\n;".toList ++ more)) = c
  have hhead : c.rest = '\n' :: ("#include f.lua\n;".toList ++ more) := by rw [← hlong, extend, hrest, nil_append]
  have hposition : c.position = e.position := by rw [← hlong, extend]
  have hinclude : Spelling.IsInclude ⟨.directive, "f.lua"⟩ := ⟨rfl, by decide, by decide⟩
  have hwritten : (c.skip 1).rest = [] ++ Spelling.written ⟨.directive, "f.lua"⟩ ++ '\n' :: ';' :: more := by
    rw [rest_skip, hhead]
    rfl
  have hfresh : ((c.skip 1).skip ([] : List Char).length).fresh = true := by
    rw [length_nil, skip_zero, skip_cons hhead]
    rfl
  obtain ⟨line, behind, hscan, hspelling, hbehind⟩ :
      ∃ t next, (c.skip 1).scan mode = .token t next ∧ t.spelling = ⟨.directive, "f.lua"⟩ ∧ next.rest = '\n' :: ';' :: more :=
    hinclude.scan (forall_mem_nil _) hfresh (by simp) hwritten
  refine ⟨line, behind, (scan_newline hhead).trans hscan, congrArg Spelling.kind hspelling, congrArg Spelling.text hspelling,
    ?_, hbehind⟩
  have hline := line_nextToken mode (c.skip 1)
  rw [nextToken_of_token hscan, skip_cons hhead] at hline
  rw [← hposition]
  exact Nat.lt_of_succ_le hline

theorem nextToken_semicolon (mode : Encoding) {c : Cursor} (h : c.rest = '\n' :: ';' :: more) :
    c.nextToken mode = (⟨.symbol .semicolon, ";", (c.skip 1).spanTo ((c.skip 1).skip 1)⟩, (c.skip 1).skip 1) ∧
      Shifted c.position.line ⟨more, {}, true⟩ ((c.skip 1).skip 1) := by
  have hrest : (c.skip 1).rest = ';' :: more := by rw [rest_skip, h]; rfl
  refine ⟨?_, ?_, ?_, fun _ => rfl⟩
  · rw [nextToken_newline h]
    exact nextToken_of_token (scan_semicolon hrest)
  · rw [rest_skip, hrest]
    rfl
  · rw [skip_cons hrest, skip_cons h]
    exact Nat.add_comm ..

end Cursor

theorem sequel_include (mode : Encoding) (more : List Char) :
    Sequel mode True True False ("#include f.lua\n;".toList ++ more) := by
  intro e hrest
  obtain ⟨line, behind, hscan, hkind, -, hbelow, hbehind⟩ := Cursor.scan_include mode more e hrest
  refine ⟨line, behind, hscan, ?_, ?_, hbelow, absurd trivial, fun _ => ?_, absurd trivial⟩
  · simp [isStop, hkind]
  · simp [isNewline, hkind]
  · have hsemicolon : (behind.skip 1).rest = ';' :: more := by rw [Cursor.rest_skip, hbehind]; rfl
    rw [Cursor.sound_newline hbehind, Cursor.sound, Cursor.scan_semicolon hsemicolon]
    rfl

namespace Window

variable {mode : Encoding} {m : Mask} {more : List Char}

/-- The window stands at the include line, with the semicolon ahead. What is behind the semicolon is the text `more`. -/
structure AtInclude (mode : Encoding) (more : List Char) (w : Window) : Prop where
  encoding : w.encoding = mode
  newlines : w.newlines = false
  kind : w.token.kind = .directive
  text : w.token.text = "f.lua"
  semicolon : w.lookahead.kind = .symbol .semicolon
  genuine : w.lookahead.Genuine
  coherent : w.Coherent
  cursor : ∃ lines, Cursor.Shifted lines ⟨more, {}, true⟩ w.cursor

theorem Leads.atInclude {w w' : Window} (h : Leads mode ("#include f.lua\n;".toList ++ more) True w w')
    (heof : w.token.isEof = true) (hmode : w.newlines = false) :
    AtInclude mode more w' := by
  cases h.place with
  | within _ hopen | last _ hopen =>
    rw [hopen] at heof
    cases heof
  | lineEnd _ _ _ hshown =>
    rw [hmode] at hshown
    cases hshown
  | beyond _ _ hrest _ behind hscan hnext =>
    obtain ⟨line, _, hline, hkind, htext, -, hbehind⟩ := Cursor.scan_include mode more w.cursor hrest
    rw [hscan] at hline
    obtain ⟨rfl, rfl⟩ := Scan.token.inj hline
    obtain ⟨hsemicolon, hshifted⟩ := Cursor.nextToken_semicolon mode hbehind
    obtain ⟨hlookahead, hcursor⟩ := Prod.mk.inj (hnext.trans hsemicolon)
    have hfile := Cursor.nextToken_file mode (w.cursor.extend ('\n' :: ("#include f.lua\n;".toList ++ more)))
    rw [Cursor.nextToken_of_token hscan] at hfile
    have hfile' := Cursor.nextToken_file mode behind
    rw [← hnext, hfile.1] at hfile'
    refine ⟨h.encoding', h.newlines.symm.trans hmode, hkind, htext, by rw [hlookahead], ?_, ?_,
      ⟨_, hcursor ▸ hshifted⟩⟩
    · rw [show w'.lookahead = (behind.nextToken mode).1 from congrArg Prod.fst hnext]
      exact Cursor.genuine_nextToken mode behind
    · rw [Coherent, ← h.file]
      exact ⟨hfile.2, hfile'.2⟩

namespace AtInclude

variable {w : Window} {text : String} {ts : List Token}

theorem next_eq (h : AtInclude mode more w) :
    w.next = fetch { w with previous := w.token, token := w.lookahead } :=
  next_of_not_atLineEnd (by simp [atLineEnd, h.newlines])

theorem tokens (h : AtInclude mode text.toList w) (hheader : ¬header <+: text.toList)
    (htokens : tokenize mode text 0 = .ok ts) (hplain : (code text.toList 0).Plain mode) (hm : m.places = false) :
    ∃ ts', w.cursor.tokens mode = .ok ts' ∧ SameLayout m ts ts' ∧ w.cursor.Plain mode := by
  obtain ⟨lines, hshifted⟩ := h.cursor
  have hcode : Cursor.Shifted lines (code text.toList 0) w.cursor := by
    rw [← isPrefixOf_iff_prefix] at hheader
    rw [code, if_neg hheader]
    exact ⟨hshifted.rest, hshifted.line, hshifted.fresh⟩
  obtain ⟨ts', hts', hlowered, hplain'⟩ := hcode.tokens htokens hplain
  exact ⟨ts', hts', sameLayout_of_lowered hm hlowered, hplain'⟩

theorem level (h : AtInclude mode text.toList w) (hheader : ¬header <+: text.toList)
    (htokens : tokenize mode text 0 = .ok ts) (hplain : (code text.toList 0).Plain mode) (hm : m.places = false) :
    w.next.1 = none ∧ w.next.2.token = w.lookahead ∧ w.next.2.next.1 = none ∧
      Level m (ofText mode text 0).start.2 w.next.2.next.2 ∧
      ∀ ts, w.next.2.next.2.stream = .ok ts → ts.Pairwise Token.Before := by
  obtain ⟨ts', hts', hlayout, hplain'⟩ := h.tokens hheader htokens hplain hm
  -- The window behind the line, before it looks ahead.
  let x : Window := { w with previous := w.token, token := w.lookahead }
  have hx : x.cursor.tokens x.encoding = .ok ts' := by rw [show x.encoding = mode from h.encoding]; exact hts'
  have hnext : w.next = x.fetch := h.next_eq
  have hcursor : x.cursor.Plain x.encoding := by rw [show x.encoding = mode from h.encoding]; exact hplain'
  have hkind : x.token.kind = .symbol .semicolon := h.semicolon
  have hplainX : x.fetch.2.Plain := Plain.fetch h.genuine (by simp [isDirective, hkind]) hcursor
  have hsettled : x.fetch.2.Settled := by
    refine .fetch hplainX (fetch_coherent h.coherent.2) h.coherent.1 (by simp [isNewline, hkind]) fun heof => ?_
    simp [isEof, hkind] at heof
  obtain ⟨cs, cs', -, -, hcoming, hcoming', hsame, -, -⟩ := fetch_layout (ofText mode text 0) x htokens hx hlayout
  obtain ⟨rest, hrest, rfl⟩ := exists_coming hcoming
  obtain ⟨rest', hrest', rfl⟩ := exists_coming hcoming'
  have hnewlines : x.fetch.2.newlines = false := by rw [fetch_newlines]; exact h.newlines
  have hstep : x.fetch.2.next = fetch { x.fetch.2 with previous := x.fetch.2.token, token := x.fetch.2.lookahead } :=
    next_of_not_atLineEnd (by rw [atLineEnd, hnewlines]; rfl)
  have hprevious : (ofText mode text 0).atFirst.previous = eof { file := 0 } := fetch_previous _
  obtain ⟨-, hnone', hlevel⟩ := fetch_level (m := m) (ofText mode text 0).atFirst
    { x.fetch.2 with previous := x.fetch.2.token, token := x.fetch.2.lookahead } hrest hrest' hsame (atFirst_settled hplain)
    (by rw [← hstep]; exact hsettled.next) ((fetch_newlines _).trans hnewlines.symm)
    (by rw [hprevious, fetch_token]; simp [isSymbol, eof, hkind]) (.inl (by rw [hprevious]; rfl))
  rw [hnext]
  refine ⟨(fetch_coming hx).1, fetch_token x, by rw [hstep]; exact hnone', ?_, ?_⟩
  · rw [start_eq, hstep]
    exact hlevel
  · intro all hall
    have hsolid : x.fetch.2.token.isSolid = true := by
      rw [fetch_token, isSolid_iff]
      simp [isEof, isNewline, hkind]
    have hstream := next_stream hplainX hsolid (by rw [hstep]; exact hnone')
    rw [stream_eq_map hsolid, fetch_ahead (fetch_coming hx).1, hx, hall] at hstream
    obtain rfl : ts' = all := (cons.inj (Except.ok.inj hstream)).2
    exact (Cursor.ordered_of_tokens hx).1

end AtInclude

end Window

/-! ### Rounds -/

namespace Session

variable {c : Settings} {s : Session} {contents : String}

theorem passInclude_of_included (halone : s.suspended = []) (h : s.included c = .ok contents) :
    ((Window.ofText c.encoding contents s.files.size).start.2.token.isEof = true ∧
        (s.passInclude c).window = s.window.next.2 ∧ (s.passInclude c).suspended = []) ∨
      ((Window.ofText c.encoding contents s.files.size).start.2.token.isEof = false ∧
        (s.passInclude c).window = (Window.ofText c.encoding contents s.files.size).start.2 ∧
        (s.passInclude c).suspended = [⟨s.window.next.2, s.window.token.span⟩]) := by
  have hopened : (if s.behindLine.openFiles.contains (Path.resolve s.behindLine.currentFile s.window.token.text) then
      .error .circularInclude
      else c.store.openInclude (Path.resolve s.behindLine.currentFile s.window.token.text) s.window.token.text) =
      Except.ok contents := by
    rw [openFiles_behindLine, currentFile_behindLine]
    exact h
  have hfiles : s.behindLine.files = s.files := rfl
  have halone' : s.behindLine.suspended = [] := halone
  rw [passInclude_eq]
  unfold Session.openInclude
  dsimp only
  rw [hopened]
  dsimp only
  rw [hfiles]
  cases heof : (Window.ofText c.encoding contents s.files.size).start.2.token.isEof with
  | true =>
    rw [if_pos rfl]
    unfold Session.resume
    dsimp only [Session.report]
    rw [halone', unwind]
    exact .inl ⟨rfl, rfl, rfl⟩
  | false =>
    rw [if_neg Bool.false_ne_true]
    unfold Session.resume
    rw [unwind, heof, if_neg Bool.false_ne_true, halone']
    exact .inr ⟨rfl, rfl, rfl⟩

end Session

namespace Parse

variable {c : Settings} {s t u : Session} {statement : Parse (Option Stmt)} {rounds : Nat} {ws : Block}

theorem rounds_of_statement {r : Option Stmt} (hopen : s.window.token.closesBlock = false)
    (hnewline : s.window.token.isNewline = false) (hread : statement.run c s = .ok r t) (hreturn : r.any Stmt.isReturn = false)
    (hrun : (collectRounds (blockStep statement) rounds).run c s = .ok ws u) :
    ∃ rounds' ws', (collectRounds (blockStep statement) rounds').run c t = .ok ws' u ∧ ws = r.toList ++ ws' := by
  cases rounds with
  | zero => cases hrun
  | succ rounds =>
    obtain ⟨_, _, hstep, hrest⟩ := run_bind_eq_ok.mp hrun
    rw [run_blockStep, if_neg (by simp [hopen, hnewline]), hread] at hstep
    cases hstep
    rw [hreturn] at hrest
    obtain ⟨ws', _, hmore, hpure⟩ := run_bind_eq_ok.mp hrest
    cases hpure
    exact ⟨rounds, ws', hmore, rfl⟩

end Parse

theorem shifted_code (text : List Char) (file file' : FileId) :
    Cursor.Shifted 0 (code text file) (code text file') := by
  unfold code
  split
  · dsimp only
    split <;> exact ⟨rfl, rfl, fun _ => rfl⟩
  · exact ⟨rfl, rfl, fun _ => rfl⟩

namespace Program

open Session Parse Comparison

variable {options : Options} {source name : String} {c : Settings} {u v : Session} {ws : Block} {rounds : Nat} {m : Mask}

/-- The end of a text stands on a line behind its last token. -/
def IsLined (options : Options) (source : String) : Prop :=
  ∀ ts, tokenize options.encoding source 0 = .ok ts → EndsLine ts

/-- The program has no include lines and is read without errors, and its last statement is complete. It is if nothing that
follows can become a part of it, where the line before may have ended unseen or not. -/
structure IsComplete (options : Options) (lineless : Prop) (source name : String) : Prop where
  alone : IsAlone options source
  errors : (parse options source name).errors = []
  last : ∀ stmt, (parse options source name).body.getLast? = some stmt →
    stmt.isReturn = false ∧ ¬stmt.Dangles lineless True True false

/-- Some rounds of the block of a whole program. -/
abbrev topRounds (levels rounds : Nat) : Parse Block :=
  collectRounds (blockStep ((grammar (levels + 1)).statement levels)) rounds

theorem rounds_of_included (hplaces : m.places = false) (hlocals : m.locals = false)
    {root : Window} {span : Span} {file : FileId}
    (h : IsComplete options (¬IsLined options source) source name)
    (hroot : root.token.kind = .symbol .semicolon) (hmode : root.newlines = false)
    (hentered : ((Window.ofText options.encoding source file).start.2.token.isEof = true ∧ v.window = root ∧ v.suspended = []) ∨
      ((Window.ofText options.encoding source file).start.2.token.isEof = false ∧
        v.window = (Window.ofText options.encoding source file).start.2 ∧ v.suspended = [⟨root, span⟩]))
    (hrun : (topRounds options.maxDepth rounds).run c v = .ok ws u) :
    ∃ ys ws' t previous rounds', (parse options source name).body.map m.statement = ys.map m.statement ∧
      t.suspended = [] ∧ t.window = { root with previous := previous } ∧
      (topRounds options.maxDepth rounds').run c t = .ok ws' u ∧ ws = ys ++ ws' := by
  obtain ⟨t, hblock, heof, hclean, hnone⟩ := exists_block_of_parse h.errors
  obtain ⟨ts, htokens, -⟩ := words_parse options source name h.alone h.errors
  -- The document has the same layout under its other number.
  obtain ⟨ts', htokens', hlowered, hplain'⟩ := (shifted_code source.toList 0 file).tokens htokens h.alone
  obtain ⟨-, -, hlevel⟩ :=
    Window.start_level htokens htokens' (sameLayout_of_lowered hplaces hlowered) h.alone hplain'
  obtain ⟨hempty, hwindow, hsuspended⟩ | ⟨hopen, hwindow, hbelow⟩ := hentered
  · -- A document without tokens has no statements and is not entered.
    have hsettled : (start options source name).window.Settled := hlevel.first
    have hthis : (start options source name).window.token.isEof = true := (Mask.isEof_eq hlevel.token).trans hempty
    have hended : (opened (start options source name)).Ended :=
      ⟨rfl, hthis, hsettled.ended hthis, hsettled.finished (hsettled.ended hthis)⟩
    have hbody : (parse options source name).body = [] := by
      obtain hrounds | hrounds := run_collectRounds_closed ((grammar (options.maxDepth + 1)).statement options.maxDepth)
        (settings options source) hended.closes (settings options source).rounds
      · cases hrounds.symm.trans hblock
      · exact (Outcome.ok.inj (hrounds.symm.trans hblock)).1.symm
    rw [hbody]
    exact ⟨[], ws, v, root.previous, rounds, rfl, hsuspended, hwindow, hrun, rfl⟩
  · let k := splice m (settings options source) c root (¬IsLined options source)
    have : k.Lawful := lawful_splice hplaces hlocals hroot hmode
    rw [← hwindow] at hlevel hopen
    have hstart : k.Related (opened (start options source name)) v := by
      refine ⟨⟨rfl, hlevel.first, .within span hbelow ?_ hlevel fun hlined ts hts => ?_⟩, False.elim⟩
      · exact (Mask.isEof_eq hlevel.token).trans hopen
      · exact not_not.mp hlined ts ((Window.start_stream hnone).symm.trans hts)
    have hlines : (start options source name).window.newlines = false := newlines_start
    have hreappears := reappears_rounds (k := k) trivial (fun h heof => h.ended heof)
      ((grammar_keepsPace k _).statement _ false) _ _ hstart (.inr hlines) hblock hrun (fun h => h.2 hclean) heof
    obtain ⟨ys, ws', t', rounds', hsame, hrelated, hrun', hws⟩ := hreappears.goes_on id trivial h.last
    cases hrelated.abreast.place with
    | within _ _ hthis =>
      rw [hthis] at heof
      cases heof
    | behind hsuspended _ hwindow' => exact ⟨ys, ws', t', _, rounds', hsame, hsuspended, hwindow', hrun', hws⟩

theorem rounds_of_level (hplaces : m.places = false) (hlocals : m.locals = false)
    (herrors : (parse options source name).errors = []) (hsuspended : v.suspended = [])
    (hlevel : Window.Level m (start options source name).window v.window) (hfile : v.window.file = 0)
    (hordered : ∀ ts, v.window.stream = .ok ts → ts.Pairwise Token.Before)
    (hrun : (topRounds options.maxDepth rounds).run c v = .ok ws u) :
    (parse options source name).body.map m.statement = ws.map m.statement ∧ u.window.token.isEof = true := by
  obtain ⟨t, hblock, heof, hclean, hnone⟩ := exists_block_of_parse herrors
  let k := Comparison.layout m False (settings options source) c
  have : k.Lawful := lawful_layout hplaces fun h => nomatch hlocals.symm.trans h
  have hordered' : ∀ ts, (start options source name).window.stream = .ok ts → ts.Pairwise Token.Before :=
    ordered_start hnone
  have hstart : k.Related (opened (start options source name)) v := by
    refine ⟨⟨rfl, hsuspended, hlevel, ?_, hordered', hordered⟩, False.elim⟩
    rw [hfile]
    exact Option.some.inj (rooted_start options source name).root
  have hlines : (start options source name).window.newlines = false := newlines_start
  have hsim := sim_blockRounds (k := k) False ((grammar_keepsPace k (options.maxDepth + 1)).statement options.maxDepth false)
    False.elim (settings options source).rounds rounds _ _ hstart (.inr hlines)
  rw [show (topRounds options.maxDepth (settings options source).rounds).run k.first _ = _ from hblock,
    show (topRounds options.maxDepth rounds).run k.second v = _ from hrun] at hsim
  obtain ⟨hlost, -⟩ | hfails | ⟨ws', u', hok, hsame, hrelated⟩ | ⟨hover, -⟩ := hsim
  · exact hlost.elim
  · exact hfails.elim
  · cases hok
    exact ⟨hsame, (Mask.isEof_eq hrelated.abreast.2.2.1.token).symm.trans heof⟩
  · exact hover.1.elim

theorem included_eq_ok {whole included : String} (hfile : v.window.file = 0)
    (hfiles : v.files[0]? = some (Path.normalize name)) (hsuspended : v.suspended = [])
    (hat : v.window.token.text = "f.lua")
    (hstore : options.store.openInclude (Path.resolve (Path.normalize name) "f.lua") "f.lua" = .ok included)
    (hpath : Path.resolve (Path.normalize name) "f.lua" ≠ Path.normalize name) :
    v.included (settings options whole) = .ok included := by
  have hcurrent : v.currentFile = Path.normalize name := by rw [currentFile, hfile, hfiles]; rfl
  have hopened : v.openFiles = [Path.normalize name] := by
    rw [openFiles, windows, hsuspended]
    simp [hfile, hfiles]
  unfold Session.included
  rw [hcurrent, hopened, hat, if_neg (by simpa using hpath)]
  exact hstore

theorem exists_atInclude {whole : String} {more : List Char} {zs : Block} (hplaces : m.places = false)
    (hheader : ¬header <+: source.toList)
    (hwhole : whole.toList = source.toList ++ '\n' :: ("#include f.lua\n;".toList ++ more))
    (h : IsComplete options False source name)
    (hblock : ((grammar (options.maxDepth + 1)).block options.maxDepth).run (settings options whole)
      (opened (start options whole name)) = .ok zs u) :
    ∃ ys ws v rounds, (parse options source name).body.map m.statement = ys.map m.statement ∧
      (topRounds options.maxDepth rounds).run (settings options whole) v = .ok ws u ∧ zs = ys ++ ws ∧ v.suspended = [] ∧
      v.window.AtInclude options.encoding more ∧ v.window.file = 0 ∧ v.files[0]? = some (Path.normalize name) := by
  have hsequel := sequel_include options.encoding more
  obtain ⟨t, hfirst, heof, hclean, hnone⟩ := exists_block_of_parse h.errors
  have hreappears := reappears_block m False hplaces hheader hwhole hsequel False.elim id (fun _ => h.alone) hnone hfirst heof
    hclean hblock
  obtain ⟨ys, ws, v, rounds, hsame, hrelated, hrun, hzs⟩ := hreappears.goes_on id trivial h.last
  obtain ⟨hended, hsuspended, hwindow⟩ := hrelated.abreast.1.ended heof
  have hmode : t.window.newlines = false := by
    let k := sequel m (settings options source) (settings options whole) ("#include f.lua\n;".toList ++ more) False True True
      False
    have : k.Lawful := lawful_sequel hplaces rfl rfl hsequel False.elim id
    have hstart : k.Related (opened (start options source name)) (opened (start options whole name)) :=
      start_related hheader hwhole hsequel hnone fun _ => h.alone
    have hlines : (start options source name).window.newlines = false := newlines_start
    have hkept : k.InLine false t.window := InLine.of_kept hstart (.inr hlines) hfirst
    exact hkept.resolve_left id
  have hreach : Reaches (settings options source) (opened (start options source name)) t := reaches hfirst
  refine ⟨ys, ws, v, rounds, hsame, hrun, hzs, hsuspended, hwindow.atInclude heof hmode, ?_, ?_⟩
  · have hrooted : (opened (start options source name)).Rooted :=
      ⟨(rooted_start options source name).root, (rooted_start options source name).finished⟩
    have hroot := (hreach.rooted hrooted).root
    rw [windows, hended.alone] at hroot
    exact hwindow.file.symm.trans (Option.some.inj hroot)
  · rw [← hrelated.abreast.1.files]
    exact hreach.getElem?_files rfl

/-- From the include line on: the line, the document that it names, and what stands behind the semicolon. -/
theorem rounds_of_atInclude {included more name' : String} (hplaces : m.places = false) (hlocals : m.locals = false)
    (hdepth : 0 < options.maxDepth) (hencoding : c.encoding = options.encoding) (hsuspended : v.suspended = [])
    (hat : v.window.AtInclude options.encoding more.toList) (hfile : v.window.file = 0)
    (hincluded : v.included c = .ok included) (h : IsComplete options (¬IsLined options included) included name)
    (hheader : ¬header <+: more.toList) (halone : IsAlone options more)
    (herrors : (parse options more name').errors = [])
    (hrun : (topRounds options.maxDepth rounds).run c v = .ok ws u) :
    ws.map m.statement = m.statement (.inclusion "f.lua" default) ::
        ((parse options included name).body.map m.statement ++ (parse options more name').body.map m.statement) ∧
      u.window.token.isEof = true := by
  obtain ⟨levels, hlevels⟩ : ∃ levels, options.maxDepth = levels + 1 := Nat.exists_eq_add_one.mpr hdepth
  obtain ⟨ts, htokens, -⟩ := words_parse options more name' halone herrors
  obtain ⟨hnext, htoken, hnext', hlevel, hordered⟩ := hat.level hheader htokens halone hplaces
  -- The include line.
  have hline : ((grammar (options.maxDepth + 1)).statement options.maxDepth).run c v =
      .ok (some (.inclusion "f.lua" v.window.token.span)) (v.passInclude c) := by
    rw [← hat.text]
    exact hlevels ▸ Grammar.run_directive _ _ c hat.kind
  obtain ⟨rounds₁, ws₁, hrun₁, hws⟩ := rounds_of_statement (by simp [closesBlock, hat.kind])
    (by simp [isNewline, hat.kind]) hline rfl hrun
  -- The document that it names.
  have hentered := passInclude_of_included hsuspended hincluded
  rw [hencoding] at hentered
  obtain ⟨ys, ws₂, w, previous, rounds₂, hsame, hsuspended₂, hwindow, hrun₂, hws₁⟩ :=
    rounds_of_included hplaces hlocals h (by rw [htoken, hat.semicolon])
      (by rw [Window.next_newlines, hat.newlines]) hentered hrun₁
  -- The semicolon.
  have hkind : w.window.token.kind = .symbol .semicolon := by
    rw [hwindow]
    exact htoken ▸ hat.semicolon
  have hstep : w.window.next = v.window.next.2.next := by
    rw [hwindow]
    rfl
  have hsemicolon : ((grammar (options.maxDepth + 1)).statement options.maxDepth).run c w =
      .ok none (w.resume w.window.next.2) := by
    have hnone : w.window.next.1 = none := by rw [hstep, hnext']
    exact hlevels ▸ Grammar.run_semicolon _ _ c hkind hnone
  obtain ⟨rounds₃, ws₃, hrun₃, hws₂⟩ := rounds_of_statement (by simp [closesBlock, hkind])
    (by simp [isNewline, hkind]) hsemicolon rfl hrun₂
  rw [resume_alone hsuspended₂, hstep] at hrun₃
  -- What stands behind it.
  obtain ⟨hsame', heof⟩ := rounds_of_level (v := { w with window := v.window.next.2.next.2 }) hplaces hlocals herrors
    hsuspended₂ hlevel (by rw [Window.next_file, Window.next_file, hfile]) hordered hrun₃
  refine ⟨?_, heof⟩
  rw [hws, hws₁, hws₂, hsame, hsame']
  simp [Mask.statement, Mask.span_hidden hplaces v.window.token.span default]

/-- A program that is stored under the name of the document that is included. -/
def storing (included : String) : Options := { store := { documents := [("f.lua", included)] } }

def isLineIf : Stmt → Bool
  | .branch [.ifThen _ [.call ..] _] _ _ => true
  | _ => false

def isCallStatement : Stmt → Bool
  | .call .. => true
  | _ => false

/-- A text, a document and a text behind the include line, each without errors. -/
def splices : List (String × String × String) :=
  [("x=1", "if (a) b()", "y=2"), ("", "if (a)\n", "y=2"), ("", "if (a) b() else", "y=2"), ("if (a)", "x=1", ""),
    ("if (a) b() else", "x=1", ""), ("if (a) if (b) c() else\nd() end", "x=1", "")]

end Program

end CartLua
