import CartLua.Proofs.Stream
/-!
# Windows that slide

A window is moved by `next`, and line ends are switched on and off in between, in any order. All of that shows the tokens
of the text one after the other, none twice and none left out, with a line end between two of them exactly where the
window is moved while line ends are switched on and a line ends there. Faults on the way change nothing about this.
-/

namespace CartLua

open List

/-! ### The tokens that scanning returns -/

namespace Cursor

variable {mode : Encoding} {c next : Cursor} {t : Token} {n : Nat}

/-- The token that the successful step number `n` of scanning returns. Steps that meet a fault are not counted, and at the
end of the text every further step returns the end again. -/
def returned (mode : Encoding) (c : Cursor) (n : Nat) : Token :=
  match h : c.scan mode with
  | .done eof next =>
    have : next.rest = [] := (scan_done h).1
    match n with
    | 0 => eof
    | n + 1 => returned mode next n
  | .token t next =>
    have : next.rest.length < c.rest.length := length_lt_of_scan_token h
    match n with
    | 0 => t
    | n + 1 => returned mode next n
  | .fault _ next =>
    have : next.rest.length < c.rest.length := length_lt_of_scan_fault h
    returned mode next n
termination_by c.rest.length + n
decreasing_by all_goals simp_all <;> omega

theorem returned_of_done {eof : Token} (h : c.scan mode = .done eof next) : c.returned mode n = eof := by
  obtain ⟨hrest, rfl, -⟩ := scan_done h
  induction n generalizing c with
  | zero =>
    rw [returned]
    split <;> simp_all
  | succ n ih =>
    have hagain := ih (c := next) (scan_nil hrest)
    rw [returned]
    split <;> simp_all

theorem returned_of_token_zero (h : c.scan mode = .token t next) : c.returned mode 0 = t := by
  rw [returned]
  split <;> simp_all

theorem returned_of_token_succ (h : c.scan mode = .token t next) :
    c.returned mode (n + 1) = next.returned mode n := by
  rw [returned]
  split <;> simp_all

theorem returned_of_fault {d : Diagnostic} (h : c.scan mode = .fault d next) :
    c.returned mode n = next.returned mode n := by
  rw [returned]
  split <;> simp_all

theorem nextToken_eq_returned (mode : Encoding) (c : Cursor) : (c.nextToken mode).1 = c.returned mode 0 := by
  induction c using Cursor.scan_induction mode with
  | done c eof next h => rw [nextToken_of_done h, returned_of_done h]
  | token c t next h _ => rw [nextToken_of_token h, returned_of_token_zero h]
  | fault c d next h ih => rw [nextToken_of_fault h, returned_of_fault h, ih]

theorem returned_nextToken (mode : Encoding) (c : Cursor) (n : Nat) :
    (c.nextToken mode).2.returned mode n = c.returned mode (n + 1) := by
  induction c using Cursor.scan_induction mode with
  | done c eof next h =>
    obtain ⟨hrest, heof, -⟩ := scan_done h
    rw [nextToken_of_done h, returned_of_done h, returned_of_done (scan_nil hrest), heof]
  | token c t next h _ => rw [nextToken_of_token h, returned_of_token_succ h]
  | fault c d next h ih => rw [nextToken_of_fault h, returned_of_fault h, ih]

theorem isNewline_returned (mode : Encoding) (c : Cursor) (n : Nat) : (c.returned mode n).isNewline = false := by
  induction n generalizing c with
  | zero =>
    rw [← nextToken_eq_returned]
    exact (genuine_nextToken mode c).newline
  | succ n ih =>
    rw [← returned_nextToken]
    exact ih _

theorem tokens_eq_returned {ts : List Token} (h : c.tokens mode = .ok ts) :
    ts = (range ts.length).map (c.returned mode) := by
  induction c, ts, h using Cursor.tokens_induction with
  | done c eof next hscan => simp [returned_of_done hscan]
  | token c t next others hscan _ ih =>
    have hshift : c.returned mode ∘ Nat.succ = next.returned mode := funext fun _ => returned_of_token_succ hscan
    rw [length_cons, range_succ_eq_map, map_cons, map_map, hshift, ← ih, returned_of_token_zero hscan]

end Cursor

/-! ### Calls -/

namespace Window

/-- What can be asked of a window. -/
inductive Call where
  | next
  | setNewlines (shown : Bool)
deriving DecidableEq, Inhabited, Repr

/-- Whether line ends are shown behind a call. -/
def Call.mode (shown : Bool) : Call → Bool
  | .next => shown
  | .setNewlines shown => shown

/-- Whether line ends are shown behind some calls: as the last change says, and at first they are not. -/
def Call.shows (calls : List Call) : Bool := calls.foldl mode false

def after (w : Window) : Call → Window
  | .next => w.next.2
  | .setNewlines shown => (w.setNewlines shown).2

def afterAll (w : Window) (calls : List Call) : Window := calls.foldl after w

/-- The token that a call makes the current one. A move always brings one, be it the end of the text once more; a change of
the mode brings one if the current token is not the same behind it. -/
def arrival (w : Window) : Call → List Token
  | .next => [w.next.2.token]
  | .setNewlines shown => if (w.setNewlines shown).2.token = w.token then [] else [(w.setNewlines shown).2.token]

/-- The tokens that successively become the current one. -/
def arrivals (w : Window) : List Call → List Token
  | [] => []
  | call :: calls => w.arrival call ++ (w.after call).arrivals calls

variable {mode : Encoding} {returned : Nat → Token} {w : Window} {n : Nat}

/-- The window stands on the token number `n`, or on a line end behind it, and has all further ones ahead. -/
structure Stands (mode : Encoding) (returned : Nat → Token) (n : Nat) (w : Window) : Prop where
  encoding : w.encoding = mode
  token : w.token = returned n ∨ w.token = Token.newline (returned n).span.stop
  lookahead : w.lookahead = returned (n + 1)
  coming : ∀ k, w.cursor.returned mode k = returned (n + 2 + k)

variable (h : w.Stands mode returned n)

include h

theorem Stands.fetch (u : Window) (hcursor : u.cursor = w.cursor)
    (hencoding : u.encoding = w.encoding) (htoken : u.token = w.lookahead) : u.fetch.2.Stands mode returned (n + 1) := by
  have hmode : u.encoding = mode := hencoding.trans h.encoding
  rw [fetch_eq, hmode, hcursor]
  refine ⟨rfl, .inl (htoken.trans h.lookahead), ?_, fun k => ?_⟩
  · rw [Cursor.nextToken_eq_returned, h.coming]
  · rw [Cursor.returned_nextToken, h.coming]
    congr 1
    omega

theorem Stands.atLineEnd (hplain : ∀ n, (returned n).isNewline = false) :
    w.atLineEnd = true ↔ w.token.isNewline = false ∧ w.newlines = true ∧ (returned n).isEof = false ∧
      (returned n).span.stop.line < (returned (n + 1)).span.start.line := by
  obtain htoken | htoken := h.token
  · simp [Window.atLineEnd, htoken, h.lookahead, hplain n, and_assoc]
  · simp [Window.atLineEnd, htoken, Token.newline, Token.isNewline]

theorem Stands.next (hplain : ∀ n, (returned n).isNewline = false) :
    (w.atLineEnd = true ∧ w.next.2.token = Token.newline (returned n).span.stop ∧ w.next.2.Stands mode returned n) ∨
      (w.atLineEnd = false ∧ w.next.2.token = returned (n + 1) ∧ w.next.2.Stands mode returned (n + 1)) := by
  have hnext := w.next_token
  cases hline : w.atLineEnd with
  | true =>
    have htoken : w.token = returned n := by
      refine h.token.resolve_right fun htoken => ?_
      have hshown := ((h.atLineEnd hplain).mp hline).1
      rw [htoken] at hshown
      cases hshown
    rw [hline, if_pos rfl, htoken] at hnext
    refine .inl ⟨rfl, hnext, ?_⟩
    have hwindow : w.next.2 = { w with previous := w.token, token := Token.newline w.token.span.stop } := by
      rw [Window.next, if_pos hline]
    rw [hwindow, htoken]
    exact ⟨h.encoding, .inr rfl, h.lookahead, h.coming⟩
  | false =>
    rw [hline, if_neg Bool.false_ne_true] at hnext
    refine .inr ⟨rfl, hnext.trans h.lookahead, ?_⟩
    rw [Window.next, if_neg (by simp [hline])]
    exact h.fetch _ rfl rfl rfl

theorem Stands.setNewlines (shown : Bool) :
    ((w.setNewlines shown).2.token = w.token ∧ (w.setNewlines shown).2.Stands mode returned n) ∨
      (w.token.isNewline = true ∧ (w.setNewlines shown).2.token = returned (n + 1) ∧
        (w.setNewlines shown).2.Stands mode returned (n + 1)) := by
  obtain hset | ⟨hnewline, -, hset⟩ := w.setNewlines_cases shown
  · rw [hset]
    exact .inl ⟨rfl, h.encoding, h.token, h.lookahead, h.coming⟩
  · rw [hset]
    refine .inr ⟨hnewline, ?_, h.fetch _ rfl rfl rfl⟩
    rw [fetch_token]
    exact h.lookahead

theorem Stands.arrival (hplain : ∀ n, (returned n).isNewline = false) (call : Call) :
    ((w.after call).Stands mode returned n ∧ (w.arrival call).filter (!·.isNewline) = []) ∨
      ((w.after call).Stands mode returned (n + 1) ∧ (w.arrival call).filter (!·.isNewline) = [returned (n + 1)]) := by
  cases call with
  | next =>
    obtain ⟨-, htoken, hstands⟩ | ⟨-, htoken, hstands⟩ := h.next hplain
    · exact .inl ⟨hstands, by rw [Window.arrival, htoken]; rfl⟩
    · exact .inr ⟨hstands, by simp [Window.arrival, htoken, hplain]⟩
  | setNewlines shown =>
    obtain ⟨htoken, hstands⟩ | ⟨hnewline, htoken, hstands⟩ := h.setNewlines shown
    · exact .inl ⟨hstands, by rw [Window.arrival, if_pos htoken]; rfl⟩
    · have hother : returned (n + 1) ≠ w.token := by
        intro heq
        rw [← heq, hplain] at hnewline
        cases hnewline
      exact .inr ⟨hstands, by simp [Window.arrival, htoken, hother, hplain]⟩

theorem Stands.arrivals (hplain : ∀ n, (returned n).isNewline = false) (calls : List Call) :
    ∃ m, (w.afterAll calls).Stands mode returned (n + m) ∧
      (w.arrivals calls).filter (!·.isNewline) = (range m).map fun k => returned (n + 1 + k) := by
  induction calls generalizing w n with
  | nil => exact ⟨0, h, rfl⟩
  | cons call calls ih =>
    rw [Window.arrivals, filter_append]
    obtain ⟨hstands, hnothing⟩ | ⟨hstands, hnext⟩ := h.arrival hplain call
    · obtain ⟨m, hlast, hrest⟩ := ih hstands
      exact ⟨m, hlast, by rw [hnothing, hrest, nil_append]⟩
    · obtain ⟨m, hlast, hrest⟩ := ih hstands
      refine ⟨m + 1, ?_, ?_⟩
      · rw [Nat.add_comm m, ← Nat.add_assoc]
        exact hlast
      · rw [hnext, hrest, range_succ_eq_map, map_cons, map_map, singleton_append]
        refine congrArg _ (map_congr_left fun k _ => congrArg returned ?_)
        show n + 1 + 1 + k = n + 1 + (k + 1)
        omega

omit h


theorem newlines_afterAll (w : Window) (calls : List Call) :
    (w.afterAll calls).newlines = calls.foldl Call.mode w.newlines := by
  induction calls generalizing w with
  | nil => rfl
  | cons call calls ih =>
    have hcall : (w.after call).newlines = Call.mode w.newlines call := by
      cases call with
      | next => exact w.next_newlines
      | setNewlines shown => exact w.setNewlines_newlines shown
    rw [foldl_cons, ← hcall]
    exact ih (w.after call)

theorem stands_start (mode : Encoding) (text : String) (file : FileId) :
    (ofText mode text file).start.2.Stands mode ((Cartridge.code text.toList file).returned mode) 0 ∧
      (ofText mode text file).start.2.token = (Cartridge.code text.toList file).returned mode 0 := by
  have hfirst : (ofText mode text file).atFirst.token = (Cartridge.code text.toList file).returned mode 0 := by
    rw [atFirst, fetch_eq]
    exact Cursor.nextToken_eq_returned mode _
  have hcoming : ∀ k, (ofText mode text file).atFirst.cursor.returned mode k =
      (Cartridge.code text.toList file).returned mode (k + 1) := by
    intro k
    rw [atFirst, fetch_eq]
    exact Cursor.returned_nextToken mode _ k
  have hencoding : (ofText mode text file).atFirst.encoding = mode := by
    rw [atFirst, fetch_eq]
    rfl
  rw [start_eq]
  dsimp only
  rw [fetch_token]
  refine ⟨?_, hfirst⟩
  rw [fetch_eq, hencoding]
  refine ⟨rfl, .inl hfirst, ?_, fun k => ?_⟩
  · exact (Cursor.nextToken_eq_returned ..).trans (hcoming 0)
  · refine (Cursor.returned_nextToken ..).trans ((hcoming (k + 1)).trans (congrArg _ ?_))
    omega

/-- A window that slides neither loses nor repeats a token. Behind any calls on it, the tokens that have been the current
one are the first `n + 1` that scanning returns, apart from line ends, and the lookahead is the next one. The current
token is the last of them or a line end behind it. Moving on shows a line end if line ends are shown, the text goes on and
a line ends there, and only then; the mode never brings one. -/
theorem arrivals_eq_returned (mode : Encoding) (text : String) (file : FileId) (calls : List Call) :
    let returned := (Cartridge.code text.toList file).returned mode
    let first := (ofText mode text file).start.2
    let w := first.afterAll calls
    (∃ n, (first.token :: first.arrivals calls).filter (!·.isNewline) = (List.range (n + 1)).map returned ∧
      w.lookahead = returned (n + 1) ∧
      (w.token = returned n ∨ w.token = Token.newline (returned n).span.stop) ∧
      w.newlines = Call.shows calls ∧
      (w.next.2.token.isNewline = true ↔ w.token.isNewline = false ∧ Call.shows calls = true ∧
        (returned n).isEof = false ∧ (returned n).span.stop.line < (returned (n + 1)).span.start.line) ∧
      ∀ shown, (w.setNewlines shown).2.token.isNewline = true → w.token.isNewline = true) ∧
    ∀ ts, tokenize mode text file = .ok ts → ts = (List.range ts.length).map returned := by
  intro returned first w
  have hplain : ∀ n, (returned n).isNewline = false := Cursor.isNewline_returned mode _
  obtain ⟨hstart, htoken⟩ := stands_start mode text file
  obtain ⟨n, hstands, harrivals⟩ := hstart.arrivals hplain calls
  rw [Nat.zero_add] at hstands
  have hshows : w.newlines = Call.shows calls := by
    have hfirst : first.newlines = false := by
      show (ofText mode text file).start.2.newlines = false
      rw [start_eq, fetch_newlines]
      exact fetch_newlines _
    show (first.afterAll calls).newlines = _
    rw [newlines_afterAll, hfirst, Call.shows]
  refine ⟨⟨n, ?_, hstands.lookahead, hstands.token, hshows, ?_, fun shown hnewline => ?_⟩, fun ts => Cursor.tokens_eq_returned⟩
  · have hfirst : first.token = returned 0 := htoken
    have hrest : (first.arrivals calls).filter (!·.isNewline) = (List.range n).map (returned ∘ Nat.succ) := by
      rw [harrivals]
      refine List.map_congr_left fun k _ => congrArg returned ?_
      omega
    rw [List.filter_cons_of_pos (by simp [hfirst, hplain]), hfirst, hrest, List.range_succ_eq_map, List.map_cons,
      List.map_map]
  · rw [← hshows, ← hstands.atLineEnd hplain]
    obtain ⟨hline, hshown, -⟩ | ⟨hline, hshown, -⟩ := hstands.next hplain
    · rw [hline, hshown]
      simp [Token.newline, Token.isNewline]
    · rw [hline, hshown, hplain]
  · obtain ⟨hsame, -⟩ | ⟨hbefore, -, -⟩ := hstands.setNewlines shown
    · rw [← hsame]
      exact hnewline
    · exact hbefore

-- A line end is taken away while it is the current token, and a wrong string is passed over.
example : ((ofText .discard "a\nb'\\q'\nc" 0).start.2.arrivals
    [.setNewlines true, .next, .setNewlines false, .setNewlines true, .next, .next, .next, .next]).map (·.text) =
      ["<newline>", "b", "<newline>", "c", "<eof>", "<eof>"] := by decide +kernel

end Window

end CartLua
