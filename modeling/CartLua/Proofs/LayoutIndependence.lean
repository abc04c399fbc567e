import CartLua.Proofs.Alignment
import CartLua.Proofs.ProgramReading
/-!
# Independence of layout

Two programs without include lines whose tokens look the same, with line ends between the same ones, are read alike, also
where they are wrong: the trees differ in spans only, the globals are the same and as many errors are found. It does not
matter how long tokens, blanks and comments are.
-/

namespace CartLua

open List Window

namespace Window

variable {m : Mask} {w w' : Window} {ts : List Token}

theorem Level.length_stream (h : Level m w w') (hsolid : w.token.isSolid = true) :
    ∃ ts ts', w.stream = .ok ts ∧ w'.stream = .ok ts' ∧ ts.length = ts'.length := by
  have hsolid' : w'.token.isSolid = true := by
    rw [Token.isSolid_iff, ← Mask.isEof_eq h.token, ← Mask.isNewline_eq h.token]
    exact Token.isSolid_iff.mp hsolid
  obtain ⟨ts, ts', hts, hts', hlayout⟩ := h.coming
  have hend := Mask.isEof_eq h.lookahead
  rw [stream_eq_map hsolid, stream_eq_map hsolid']
  unfold ahead
  rw [← hend]
  split
  · exact ⟨_, _, rfl, rfl, rfl⟩
  · refine ⟨w.token :: ts, w'.token :: ts', ?_, ?_, by simp [hlayout.length_eq]⟩
    · exact congrArg (Except.map (w.token :: ·)) hts
    · exact congrArg (Except.map (w'.token :: ·)) hts'

theorem next_suffix (hplain : w.Plain) (hend : w.token.isEof = false) (hnone : w.next.1 = none)
    (hstream : w.stream = .ok ts) : ∃ rest, w.next.2.stream = .ok rest ∧ rest <:+ ts := by
  cases hnewline : w.token.isNewline with
  | true =>
    have hline : ¬w.atLineEnd = true := by simp [atLineEnd, hnewline]
    have hnext : w.next = fetch { w with previous := w.token, token := w.lookahead } := by rw [next, if_neg hline]
    rw [hnext] at hnone ⊢
    rw [stream, if_neg (by simp [hend]), if_pos hnewline] at hstream
    have hahead := fetch_stream (w := { w with previous := w.token, token := w.lookahead }) rfl hplain.lookahead hnone
    exact ⟨ts, hahead.trans hstream, suffix_rfl⟩
  | false =>
    rw [next_stream hplain (Token.isSolid_iff.mpr ⟨hend, hnewline⟩) hnone] at hstream
    cases hnext : w.next.2.stream with
    | error =>
      rw [hnext] at hstream
      cases hstream
    | ok rest =>
      rw [hnext] at hstream
      cases hstream
      exact ⟨rest, rfl, suffix_cons ..⟩

theorem exists_stream (hts : w.coming = .ok ts) : ∃ ts, w.stream = .ok ts := by
  have hahead : ∃ ts, w.ahead = .ok ts := by
    unfold ahead
    split
    · exact ⟨_, rfl⟩
    · exact ⟨ts, hts⟩
  obtain ⟨rest, hrest⟩ := hahead
  unfold stream
  rw [hrest]
  split
  · exact ⟨_, rfl⟩
  · split
    · exact ⟨_, rfl⟩
    · exact ⟨_, rfl⟩

theorem next_ordered (hplain : w.Plain) (hend : w.token.isEof = false) (hnone : w.next.1 = none)
    (hstream : ∃ ts, w.stream = .ok ts) (hordered : ∀ ts, w.stream = .ok ts → ts.Pairwise Token.Before) :
    ∀ ts, w.next.2.stream = .ok ts → ts.Pairwise Token.Before := by
  intro ts hts
  obtain ⟨all, hall⟩ := hstream
  obtain ⟨rest, hrest, hsuffix⟩ := next_suffix hplain hend hnone hall
  rw [hrest] at hts
  cases hts
  exact (hordered all hall).sublist hsuffix.sublist

theorem next_ended (hsettled : w.Settled) (hend : w.token.isEof = true) (hcoming : w.coming = .ok ts) :
    w.next.2.token.isEof = true ∧ ∃ ts, w.next.2.coming = .ok ts := by
  have hline : ¬w.atLineEnd = true := by simp [atLineEnd, hend]
  obtain ⟨rest, hrest, -⟩ := exists_coming hcoming
  have hfetch := fetch_coming (w := { w with previous := w.token, token := w.lookahead }) hrest
  rw [next, if_neg hline, fetch_token]
  refine ⟨hsettled.ended hend, ?_⟩
  obtain ⟨hcoming, -⟩ | ⟨p, -, -, -, hcoming⟩ := hfetch.2
  · exact ⟨_, hcoming⟩
  · exact ⟨_, hcoming⟩

end Window

namespace Session

variable {c : Settings} {s t : Session} {all : List Token}

/-- The window of the only open document moves over the tokens `all`, which are free of faults. Unless it stands on the
first of them it has passed a token. -/
structure Follows (all : List Token) (s : Session) : Prop where
  alone : s.suspended = []
  settled : s.window.Settled
  coming : ∃ ts, s.window.coming = .ok ts
  stream : s.window.token.isEof = true ∨ ∃ rest, s.window.stream = .ok rest ∧ rest <:+ all ∧
    (rest = all ∨ s.window.previous.isEof = false)

theorem Follows.level (h : s.Follows all) : Window.Level {} s.window s.window := by
  obtain ⟨ts, hts⟩ := h.coming
  exact ⟨h.settled, h.settled, rfl, rfl, rfl, ⟨ts, ts, hts, hts, rfl, rfl⟩, fun _ => rfl, fun _ => .inr rfl⟩

theorem Act.follows (h : Act c s t) (hs : s.Follows all) : t.Follows all := by
  obtain ⟨hwindow, hsuspended, -⟩ | rfl | ⟨shown, rfl⟩ | ⟨hkind, rfl⟩ := h.cases_window
  · exact ⟨hsuspended.trans hs.alone, hwindow ▸ hs.settled, hwindow ▸ hs.coming, hwindow ▸ hs.stream⟩
  · rw [resume_alone hs.alone]
    cases hend : s.window.token.isEof with
    | true =>
      obtain ⟨ts, hts⟩ := hs.coming
      obtain ⟨htoken, hcoming⟩ := next_ended hs.settled hend hts
      exact ⟨hs.alone, hs.settled.next, hcoming, .inl htoken⟩
    | false =>
      obtain ⟨hnone, -, hlevel⟩ := hs.level.next rfl hend
      obtain ⟨ts, -, hts, -⟩ := hlevel.coming
      obtain ⟨rest, hstream, hsuffix, -⟩ := hs.stream.resolve_left (by simp [hend])
      obtain ⟨rest', hstream', hsuffix'⟩ := next_suffix hs.settled.plain hend hnone hstream
      refine ⟨hs.alone, hlevel.first, ⟨ts, hts⟩, .inr ⟨rest', hstream', hsuffix'.trans hsuffix, .inr ?_⟩⟩
      rw [next_previous]
      exact hend
  · rw [resume_alone hs.alone]
    obtain ⟨hnone, -, hlevel⟩ := hs.level.setNewlines shown
    obtain ⟨ts, -, hts, -⟩ := hlevel.coming
    refine ⟨hs.alone, hlevel.first, ⟨ts, hts⟩, ?_⟩
    obtain hend | ⟨rest, hstream, hsuffix, hpassed⟩ := hs.stream
    · left
      have hnewline : ¬(!shown && s.window.token.isNewline) = true := by
        simp [Token.isNewline_of_isEof hend]
      dsimp only
      rw [setNewlines, if_neg hnewline]
      exact hend
    · right
      refine ⟨rest, (setNewlines_stream hs.settled.plain hnone).trans hstream, hsuffix, ?_⟩
      rw [setNewlines_previous]
      exact hpassed
  · have hdirective := hs.settled.plain.tokenKind
    simp [Token.isDirective, hkind] at hdirective

theorem Reaches.follows (h : Reaches c s t) (hs : s.Follows all) : t.Follows all :=
  h.keeps Act.follows hs

end Session

namespace Comparison

open Session

/-- Two sessions with one document each are compared, at the same place of texts of the same layout. -/
def layout (mask : Mask) (tracked : Prop) (first second : Settings) : Comparison where
  mask := mask
  first := first
  second := second
  lenient := False
  tracked := tracked
  lineless := True
  followed := True
  faulty := True
  broken := False
  Abreast s s' := s.suspended = [] ∧ s'.suspended = [] ∧ Window.Level mask s.window s'.window ∧
    s.window.file = s'.window.file ∧ (∀ ts, s.window.stream = .ok ts → ts.Pairwise Token.Before) ∧
    ∀ ts, s'.window.stream = .ok ts → ts.Pairwise Token.Before

variable {mask : Mask} {tracked : Prop} {first second : Settings} {s s' t t' : Session}

theorem start_ne_iff {c : Settings} (hs : s.suspended = []) (hsettled : s.window.Settled) (hcoming : ∃ ts, s.window.coming = .ok ts)
    {all rest : List Token} (hall : s.window.stream = .ok all) (hordered : all.Pairwise Token.Before)
    (hsolid : s.window.token.isSolid = true) (hreach : Reaches c s t) (htoken : t.window.token.isSolid = true)
    (hrest : t.window.stream = .ok rest) :
    (t.window.token.span.start ≠ s.window.token.span.start ↔ rest.length ≠ all.length) ∧
      (rest.length ≠ all.length → t.window.previous.isEof = false) := by
  have hfollows : t.Follows all :=
    hreach.follows ⟨hs, hsettled, hcoming, .inr ⟨all, hall, suffix_rfl, .inl rfl⟩⟩
  obtain heof | ⟨_, hstream, hsuffix, hpassed⟩ := hfollows.stream
  · rw [(Token.isSolid_iff.mp htoken).1] at heof
    cases heof
  rw [hrest] at hstream
  cases hstream
  obtain ⟨tail, rfl⟩ := stream_solid hsolid hall
  obtain ⟨tail', rfl⟩ := stream_solid htoken hrest
  constructor
  · constructor
    · intro hne hlength
      exact hne (congrArg (fun x : Token => x.span.start) (cons.inj (hsuffix.eq_of_length hlength)).1)
    · intro hlength hsame
      have htail : t.window.token :: t.window.lookahead :: tail' <:+ s.window.lookahead :: tail :=
        (suffix_cons_iff.mp hsuffix).resolve_left fun h => hlength (congrArg length h)
      have hbefore := (pairwise_cons.mp hordered).1 _ (htail.subset (mem_cons_self ..))
      unfold Token.Before at hbefore
      rw [hsame] at hbefore
      omega
  · exact fun hlength => hpassed.resolve_left fun h => hlength (congrArg length h)

theorem layout_leaves (hs : (layout mask tracked first second).Abreast s s') (hsolid : s.window.token.isSolid = true)
    (hreach : Reaches first s t) (hreach' : Reaches second s' t') (ht : (layout mask tracked first second).Abreast t t')
    (hopen : t.window.token.closesBlock = false) :
    (t.window.token.span.start != s.window.token.span.start &&
        (t.window.previous.span.stop.line < t.window.token.span.start.line ||
          t.window.previous.span.stop.file != t.window.token.span.file)) =
      (t'.window.token.span.start != s'.window.token.span.start &&
        (t'.window.previous.span.stop.line < t'.window.token.span.start.line ||
          t'.window.previous.span.stop.file != t'.window.token.span.file)) := by
  obtain ⟨halone, halone', hlevel, -, hordered, hordered'⟩ := hs
  obtain ⟨-, -, hmoved, -, -, -⟩ := ht
  have hfile : ∀ {w : Window}, w.Settled → (w.previous.span.stop.file != w.token.span.file) = false := by
    intro w hw
    simp [Span.file, hw.previous.2, hw.coherent.1.1]
  rw [hfile hmoved.first, hfile hmoved.second, Bool.or_false, Bool.or_false]
  cases hnewline : t.window.token.isNewline with
  | true =>
    -- A line end that is shown is still on the line of the token before it.
    have hnewline' : t'.window.token.isNewline = true := by rw [← Mask.isNewline_eq hmoved.token, hnewline]
    simp [(hmoved.first.newline hnewline).1, (hmoved.second.newline hnewline').1, Span.point]
  | false =>
    have htoken : t.window.token.isSolid = true := Token.isSolid_iff.mpr ⟨Token.isEof_of_closesBlock hopen, hnewline⟩
    have htoken' : t'.window.token.isSolid = true := by
      rw [Token.isSolid_iff, ← Mask.isEof_eq hmoved.token, ← Mask.isNewline_eq hmoved.token]
      exact Token.isSolid_iff.mp htoken
    have hsolid' : s'.window.token.isSolid = true := by
      rw [Token.isSolid_iff, ← Mask.isEof_eq hlevel.token, ← Mask.isNewline_eq hlevel.token]
      exact Token.isSolid_iff.mp hsolid
    obtain ⟨all, all', hall, hall', hlength⟩ := hlevel.length_stream hsolid
    obtain ⟨rest, rest', hrest, hrest', hlength'⟩ := hmoved.length_stream htoken
    obtain ⟨ts, ts', hts, hts', -⟩ := hlevel.coming
    obtain ⟨hne, hpassed⟩ :=
      start_ne_iff halone hlevel.first ⟨ts, hts⟩ hall (hordered _ hall) hsolid hreach htoken hrest
    obtain ⟨hne', -⟩ :=
      start_ne_iff halone' hlevel.second ⟨ts', hts'⟩ hall' (hordered' _ hall') hsolid' hreach' htoken' hrest'
    by_cases hsame : rest.length = all.length
    · have hstart : t.window.token.span.start = s.window.token.span.start :=
        not_ne_iff.mp fun h => hne.mp h hsame
      have hstart' : t'.window.token.span.start = s'.window.token.span.start :=
        not_ne_iff.mp fun h => hne'.mp h (hlength' ▸ hlength ▸ hsame)
      simp [hstart, hstart']
    · have hback := (hmoved.back htoken).resolve_left (by simp [hpassed hsame])
      have hstart := hne.mpr hsame
      have hstart' := hne'.mpr fun h => hsame (hlength' ▸ hlength ▸ h)
      rw [hback, bne_iff_ne.mpr hstart, bne_iff_ne.mpr hstart']

theorem lawful_layout (hplaces : mask.places = false) (hlocals : mask.locals = true → tracked) :
    (layout mask tracked first second).Lawful where
  shown h := h.elim hlocals fun h => nomatch hplaces.symm.trans h
  broken := False.elim
  followed := id
  places h := nomatch hplaces.symm.trans h
  still := by
    rintro s s' t t' ⟨halone, halone', hlevel, hfile, hordered, hordered'⟩ hst - hst' -
    refine ⟨hst.suspended.trans halone, hst'.suspended.trans halone', ?_, ?_, ?_, ?_⟩
    · rw [hst.window, hst'.window]
      exact hlevel
    · rw [hst.window, hst'.window]
      exact hfile
    · rw [hst.window]
      exact hordered
    · rw [hst'.window]
      exact hordered'
  token h := .inl h.2.2.1.token
  previous h := ⟨h.2.2.1.previous, Mask.position_hidden hplaces _ _⟩
  lookahead h := .inl (Mask.isSymbol_eq h.2.2.1.lookahead _)
  near _ h := (Mask.token_inj h.2.2.1.lookahead).2.1
  newlines h := .inl h.2.2.1.newlines
  advance := by
    rintro s s' ⟨halone, halone', hlevel, hfile, hordered, hordered'⟩ hend -
    have hend' : s'.window.token.isEof = false := by rw [← Mask.isEof_eq hlevel.token, hend]
    obtain ⟨hnone, hnone', hnext⟩ := hlevel.next hplaces hend
    obtain ⟨ts, ts', hts, hts', -⟩ := hlevel.coming
    rw [hnone, hnone', resume_alone halone, resume_alone halone']
    refine .inl (.inr ⟨.none, halone, halone', hnext, ?_, ?_, ?_⟩)
    · dsimp only
      rw [next_file, next_file, hfile]
    · exact next_ordered hlevel.first.plain hend hnone (exists_stream hts) hordered
    · exact next_ordered hlevel.second.plain hend' hnone' (exists_stream hts') hordered'
  setNewlines := by
    rintro s s' shown ⟨halone, halone', hlevel, hfile, hordered, hordered'⟩ -
    obtain ⟨hnone, hnone', hnext⟩ := hlevel.setNewlines shown
    rw [hnone, hnone', resume_alone halone, resume_alone halone']
    refine .inl (.inr ⟨.none, halone, halone', hnext, ?_, ?_, ?_⟩)
    · dsimp only
      rw [setNewlines_file, setNewlines_file, hfile]
    · intro ts hts
      exact hordered ts ((setNewlines_stream hlevel.first.plain hnone).symm.trans hts)
    · intro ts hts
      exact hordered' ts ((setNewlines_stream hlevel.second.plain hnone').symm.trans hts)
  passInclude := by
    intro s s' hs hkind
    have hdirective := hs.abreast.2.2.1.first.plain.tokenKind
    simp [Token.isDirective, hkind] at hdirective
  undisturbed h := absurd trivial h
  lineEnd h := absurd trivial h
  showLines h := absurd trivial h
  semicolon h := absurd trivial h
  leaves _ hs hsolid hreach hreach' ht hopen := layout_leaves hs hsolid hreach hreach' ht hopen
  files := by
    rintro s s' - ⟨-, -, hlevel, hfile, -, -⟩
    refine ⟨?_, hfile⟩
    exact hlevel.first.coherent.1.1.trans (hfile.trans hlevel.second.coherent.1.1.symm)

end Comparison

namespace Program

open Parse Comparison

theorem mem_of_readable {mode : Encoding} {c : Cursor} {ts : List Token} (h : c.tokens mode = .ok ts) :
    ∀ t ∈ c.readable mode, t ∈ ts := by
  induction c, ts, h using Cursor.tokens_induction with
  | done c eof next hscan =>
    rw [Cursor.readable_of_done hscan]
    nofun
  | token c t next others hscan _ ih =>
    rw [Cursor.readable_of_token hscan]
    intro u hu
    obtain rfl | hu := mem_cons.mp hu
    · exact mem_cons_self ..
    · exact mem_cons_of_mem _ (ih u hu)

variable {options : Options} {source source' : String} {ts ts' : List Token}

theorem ordered_start {name : String} (hnone : (ofText options.encoding source 0).start.1 = none) :
    ∀ ts, (start options source name).window.stream = .ok ts → ts.Pairwise Token.Before :=
  fun _ hts => (Cursor.ordered_of_tokens ((start_stream hnone).symm.trans hts)).1

theorem sameLayout_of_words {m : Mask} (hm : m.places = false)
    (hwords : ts.map (fun t => (t.kind, t.text)) = ts'.map fun t => (t.kind, t.text)) (hbreaks : lineBreaks ts = lineBreaks ts') :
    SameLayout m ts ts' := by
  have htoken : m.token = (fun x : TokenKind × String => (⟨m.kind x.1, x.2, m.span default⟩ : Token)) ∘ fun t => (t.kind, t.text) := by
    funext t
    simp [Mask.token, Mask.span_hidden hm t.span default]
  refine ⟨?_, hbreaks⟩
  rw [htoken, ← map_map, ← map_map, hwords]

theorem isAlone_of_tokens (htokens : tokenize options.encoding source 0 = .ok ts) (hplain : ∀ t ∈ ts, t.isDirective = false) :
    IsAlone options source :=
  fun t ht => hplain t (mem_of_readable htokens t ht)

/-- Programs without include lines and of the same layout are read alike: up to spans the bodies are the same, the globals
are the same, and as many errors are found. -/
theorem parse_of_sameLayout (name name' : String) (htokens : tokenize options.encoding source 0 = .ok ts)
    (htokens' : tokenize options.encoding source' 0 = .ok ts') (hplain : ∀ t ∈ ts, t.isDirective = false)
    (hwords : ts.map (fun t => (t.kind, t.text)) = ts'.map fun t => (t.kind, t.text))
    (hbreaks : lineBreaks ts = lineBreaks ts') :
    Mask.statements {} (parse options source name).body = Mask.statements {} (parse options source' name').body ∧
      (parse options source name).globals = (parse options source' name').globals ∧
      (parse options source name).errors.length = (parse options source' name').errors.length := by
  have hplain' : ∀ t ∈ ts', t.isDirective = false := by
    intro t ht
    have hmem : (t.kind, t.text) ∈ ts.map fun t => (t.kind, t.text) := by
      rw [hwords]
      exact List.mem_map_of_mem ht
    obtain ⟨u, hu, heq⟩ := List.mem_map.mp hmem
    have hkind : u.kind = t.kind := (Prod.mk.inj heq).1
    have hdirective := hplain u hu
    unfold Token.isDirective at hdirective ⊢
    rwa [hkind] at hdirective
  obtain ⟨hnone, hnone', hlevel⟩ := Window.start_level htokens htokens' (sameLayout_of_words (m := {}) rfl hwords hbreaks)
    (isAlone_of_tokens htokens hplain) (isAlone_of_tokens htokens' hplain')
  -- The two runs start at the same place and keep pace up to their ends.
  let k := Comparison.layout {} True (settings options source) (settings options source')
  have : k.Lawful := lawful_layout rfl fun _ => trivial
  have hstart : k.Related (start options source name) (start options source' name') := by
    refine ⟨⟨rfl, rfl, hlevel, ?_, ordered_start hnone, ordered_start hnone'⟩, fun _ => ⟨rfl, rfl, rfl, rfl, rfl, ?_⟩⟩
    · show (Window.ofText options.encoding source 0).start.2.file = (Window.ofText options.encoding source' 0).start.2.file
      rw [Window.start_file, Window.start_file]
      exact (Cartridge.code_file _ _).trans (Cartridge.code_file _ _).symm
    · simp [start, hnone, hnone']
  obtain ⟨body, last, hrun⟩ := exists_run_eq_ok options source name
  obtain ⟨body', last', hrun'⟩ := exists_run_eq_ok options source' name'
  have hpace := agree_wholeText (k := k) id options.maxDepth _ _ hstart trivial
  rw [show (wholeText options.maxDepth).run k.first (start options source name) = _ from hrun,
    show (wholeText options.maxDepth).run k.second (start options source' name') = _ from hrun'] at hpace
  obtain ⟨hlost, -⟩ | hexhausted | ⟨_, _, hok, hbody, hrelated⟩ | ⟨hopen, -⟩ := hpace
  · exact hlost.elim
  · cases hexhausted
  · cases hok
    have halike := hrelated.alike trivial
    rw [parse, parse, hrun, hrun', Mask.statements_eq_map, Mask.statements_eq_map]
    refine ⟨hbody, congrArg Array.toList halike.globals, ?_⟩
    simpa [ofSessions] using congrArg List.length halike.errors
  · exact hopen.elim

/-- A program with an if statement on one line, a wrong statement and no blanks that could be left out. -/
def tight : String := "if(a)b=c else d()\nx=)y\nlocal q=f'z'..b"

/-- The same program with other blanks and with comments. -/
def loose : String := "--[[\n]]if ( a ) b = c --[[ ]] else d ( )\n\n   x = ) y // wrong\n--\nlocal q = f 'z' .. b --"

/-- Blanks and comments do not matter to a program with an error in it. -/
theorem parse_of_sameLayout_tight : ∃ ts ts', tokenize .discard tight 0 = .ok ts ∧ tokenize .discard loose 0 = .ok ts' ∧
    (∀ t ∈ ts, t.isDirective = false) ∧ ts.map (fun t => (t.kind, t.text)) = ts'.map (fun t => (t.kind, t.text)) ∧
    lineBreaks ts = lineBreaks ts' ∧ ts ≠ ts' ∧
    Mask.statements {} (parse {} tight "a.lua").body = Mask.statements {} (parse {} loose "b.lua").body ∧
    (parse {} tight "a.lua").globals = (parse {} loose "b.lua").globals ∧
    (parse {} tight "a.lua").errors.length = (parse {} loose "b.lua").errors.length ∧
    (parse {} tight "a.lua").errors.length = 1 := by
  have hok : ∀ {r : Except Diagnostic (List Token)}, r.toOption.isSome = true → r = .ok (r.toOption.getD []) := by
    rintro (_ | _) h
    · cases h
    · rfl
  have htight := hok (r := tokenize .discard tight 0) (by decide +kernel)
  have hloose := hok (r := tokenize .discard loose 0) (by decide +kernel)
  have hplain : ∀ t ∈ (tokenize .discard tight 0).toOption.getD [], t.isDirective = false := by decide +kernel
  have hwords : ((tokenize .discard tight 0).toOption.getD []).map (fun t => (t.kind, t.text)) =
      ((tokenize .discard loose 0).toOption.getD []).map fun t => (t.kind, t.text) := by decide +kernel
  have hbreaks : lineBreaks ((tokenize .discard tight 0).toOption.getD []) =
      lineBreaks ((tokenize .discard loose 0).toOption.getD []) := by decide +kernel
  obtain ⟨hbody, hglobals, herrors⟩ :=
    @parse_of_sameLayout {} tight loose _ _ "a.lua" "b.lua" htight hloose hplain hwords hbreaks
  exact ⟨_, _, htight, hloose, hplain, hwords, hbreaks, by decide +kernel, hbody, hglobals, herrors, by decide +kernel⟩

end Program

end CartLua
