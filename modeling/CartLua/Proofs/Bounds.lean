import CartLua.Proofs.Positions
import CartLua.Proofs.Sliding
import CartLua.Proofs.Tiling
/-!
# Reading stays in range

All lengths and offsets that reading a lexeme gives lie within the text that is left, also those of wrong lexemes. So a
cursor never leaves the code of its text, whatever is asked of the window it belongs to, and it never goes back.
-/

namespace CartLua

open List

variable {text rest : List Char} {ch : Char}

/-! ### Lengths and offsets -/

namespace Trivia

theorem unclosed_lt {offset : Nat} (h : read text = .unclosed offset) : offset < text.length := by
  fun_induction read text generalizing offset with
  | case1 => cases h
  | case2 => cases h
  | case3 text blanks c rest hdrop =>
    cases h
    have hlength := congrArg length hdrop
    rw [length_drop, length_cons] at hlength
    omega
  | case4 text blanks c rest hdrop _ more _ =>
    rename_i ih
    have hlength := congrArg length hdrop
    rw [length_drop, length_cons] at hlength
    cases hread : read (rest.drop more) with
    | clear => rw [hread] at h; cases h
    | unclosed =>
      rw [hread] at h
      cases h
      have hoffset := ih hread
      rw [length_drop] at hoffset
      omega

end Trivia

/-! ### Places -/

namespace Cursor

variable {mode : Encoding} {c next : Cursor}

/-- The place stands where it says in a text that ends with what is still to come, and its line starts in that text. -/
def InRange (text : List Char) (c : Cursor) : Prop :=
  ∃ front line, text = front ++ line ++ c.rest ∧ '\n' ∉ line ∧ c.position.index = front.length + line.length ∧
    c.position.column = line.length + 1

theorem InRange.skip (h : c.InRange text) (n : Nat) : (c.skip n).InRange text := by
  induction n generalizing c with
  | zero => exact h
  | succ n ih =>
    cases hrest : c.rest with
    | nil =>
      rw [skip_of_nil hrest]
      exact h
    | cons ch rest =>
      rw [skip_cons hrest]
      refine ih ?_
      obtain ⟨front, line, htext, hline, hindex, hcolumn⟩ := h
      rw [hrest] at htext
      unfold Position.after
      split
      next hnewline =>
        -- A new line starts behind the line feed.
        refine ⟨front ++ line ++ [ch], [], by simp [htext], not_mem_nil, ?_, rfl⟩
        simp only [hindex, length_append, length_singleton, length_nil]
      next hnewline =>
        refine ⟨front, line ++ [ch], by simp [htext], ?_, ?_, ?_⟩
        · simp [hline, Ne.symm hnewline]
        · simp only [hindex, length_append, length_singleton, Nat.add_assoc]
        · simp only [hcolumn, length_append, length_singleton]

theorem InRange.length (h : c.InRange text) : c.position.index + c.rest.length = text.length := by
  obtain ⟨front, line, rfl, -, hindex, -⟩ := h
  rw [hindex, length_append, length_append]

/-- What a step of scanning passes over, and what it cuts out of the text, is there. -/
def ReadsWithin (mode : Encoding) (c : Cursor) : Prop :=
  match Trivia.read c.rest with
  | .unclosed offset => offset < c.rest.length
  | .clear length => length ≤ c.rest.length ∧ ∀ ch rest, (c.skip length).rest = ch :: rest →
      (Lexeme.read mode (c.skip length).position.line (c.skip length).fresh ch rest).Fits (ch :: rest)

theorem readsWithin (mode : Encoding) (c : Cursor) : c.ReadsWithin mode := by
  unfold ReadsWithin
  split
  next offset hread => exact Trivia.unclosed_lt hread
  next length hread => exact ⟨(Trivia.read_append hread []).1, fun ch rest _ => Lexeme.fits_read ..⟩

theorem index_lt_skip {n : Nat} (h : (c.skip n).rest.length < c.rest.length) :
    c.position.index < (c.skip n).position.index := by
  rw [rest_skip, length_drop] at h
  rw [skip_index]
  omega

theorem exists_skip_nextToken (mode : Encoding) (c : Cursor) : ∃ n, (c.nextToken mode).2 = c.skip n := by
  induction c using scan_induction mode with
  | done c eof next h =>
    rw [nextToken_of_done h]
    exact (scan_done h).2.2
  | token c t next h _ =>
    rw [nextToken_of_token h]
    exact scan_token_next h
  | fault c d next h ih =>
    obtain ⟨n, rfl⟩ := scan_fault h
    obtain ⟨m, hm⟩ := ih
    rw [nextToken_of_fault h, hm, skip_skip]
    exact ⟨n + m, rfl⟩

end Cursor

theorem Cartridge.inRange_code (text : List Char) (file : FileId) :
    (code text file).InRange (text.take ((code text file).position.index + (code text file).rest.length)) := by
  obtain ⟨front, htext, hindex⟩ := standsIn_code text file
  refine ⟨front, [], by simpa using htext, not_mem_nil, hindex.symm, ?_⟩
  unfold code
  split
  · dsimp only
    split <;> rfl
  · rfl

/-! ### Requests -/

namespace Window

/-- All that can be asked of a window: to start, a call, or to read one token without showing it. -/
inductive Request where
  | start
  | call (call : Call)
  | scan
deriving DecidableEq, Inhabited, Repr

def obey (w : Window) : Request → Window
  | .start => w.start.2
  | .call call => w.after call
  | .scan => { w with cursor := (w.cursor.scan w.encoding).next }

def obeyAll (w : Window) (requests : List Request) : Window := requests.foldl obey w

/-- The second window has the encoding of the first and stands at the same place or further on. -/
def Onward (w u : Window) : Prop := u.encoding = w.encoding ∧ ∃ n, u.cursor = w.cursor.skip n

variable {w u v : Window}

theorem Onward.refl (w : Window) : w.Onward w := ⟨rfl, 0, rfl⟩

theorem Onward.trans (h : w.Onward u) (h' : u.Onward v) : w.Onward v := by
  obtain ⟨hencoding, m, hm⟩ := h
  obtain ⟨hencoding', n, hn⟩ := h'
  exact ⟨hencoding'.trans hencoding, m + n, by rw [hn, hm, Cursor.skip_skip]⟩

theorem onward_fetch (w : Window) : w.Onward w.fetch.2 := by
  rw [fetch_eq]
  exact ⟨rfl, Cursor.exists_skip_nextToken ..⟩

theorem onward_next (w : Window) : w.Onward w.next.2 := by
  unfold next
  split
  · exact ⟨rfl, 0, rfl⟩
  · exact onward_fetch { w with previous := w.token, token := w.lookahead }

theorem onward_obey (w : Window) (request : Request) : w.Onward (w.obey request) := by
  cases request with
  | start => exact (onward_fetch w).trans (onward_next w.fetch.2)
  | call call =>
    cases call with
    | next => exact onward_next w
    | setNewlines shown =>
      obtain hset | ⟨-, -, hset⟩ := w.setNewlines_cases shown
      · rw [obey, after, hset]
        exact ⟨rfl, 0, rfl⟩
      · rw [obey, after, hset]
        exact onward_fetch { w with newlines := shown, token := w.lookahead }
  | scan => exact ⟨rfl, (Cursor.exists_skip_scan ..).2⟩

theorem onward_obeyAll (w : Window) (requests : List Request) : w.Onward (w.obeyAll requests) := by
  induction requests generalizing w with
  | nil => exact .refl w
  | cons request requests ih => exact (onward_obey w request).trans (ih (w.obey request))

/-- Reading stays in range and makes progress. Whatever has been asked of a window, its cursor stands in the code of the
text, on a line that starts there, and the next step takes no character that is not left. A step that finds a token or a
fault moves on, nothing that is asked afterwards goes back, and at the end of the code a step finds the end. -/
theorem obeyAll_inRange (mode : Encoding) (text : String) (file : FileId) (requests later : List Request) :
    let code := Cartridge.code text.toList file
    let stop := code.position.index + code.rest.length
    let w := (ofText mode text file).obeyAll requests
    let c := w.cursor
    stop ≤ text.toList.length ∧ c.InRange (text.toList.take stop) ∧ c.ReadsWithin mode ∧
      (∀ t next, c.scan mode = .token t next → c.position.index < next.position.index) ∧
      (∀ d next, c.scan mode = .fault d next → c.position.index < next.position.index) ∧
      c.position.index ≤ (w.obeyAll later).cursor.position.index ∧
      (c.position.index = stop → c.scan mode = .done (Token.eof c.position) c) := by
  intro code stop w c
  obtain ⟨-, n, hn⟩ : (ofText mode text file).Onward w := onward_obeyAll _ requests
  have hcode := Cartridge.inRange_code text.toList file
  have hrange : c.InRange (text.toList.take stop) := by
    show w.cursor.InRange _
    rw [hn]
    exact hcode.skip n
  have hlength : (text.toList.take stop).length = stop := hcode.length.symm
  refine ⟨?_, hrange, c.readsWithin mode, fun t next hscan => ?_, fun d next hscan => ?_, ?_, fun hend => ?_⟩
  · rw [← hlength]
    exact List.length_take_le' ..
  · obtain ⟨k, rfl⟩ := Cursor.scan_token_next hscan
    exact Cursor.index_lt_skip (Cursor.length_lt_of_scan_token hscan)
  · obtain ⟨k, rfl⟩ := Cursor.scan_fault hscan
    exact Cursor.index_lt_skip (Cursor.length_lt_of_scan_fault hscan)
  · obtain ⟨-, k, hk⟩ : w.Onward (w.obeyAll later) := onward_obeyAll w later
    rw [hk, Cursor.skip_index]
    exact Nat.le_add_right ..
  · refine Cursor.scan_nil (List.length_eq_zero_iff.mp ?_)
    have htotal := hrange.length
    rw [hlength, hend] at htotal
    omega

end Window

end CartLua
