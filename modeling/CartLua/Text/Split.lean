/-!
# Splitting texts
-/

namespace CartLua

/-- The stretches of a text between separators. There is one more of them than there are separators. -/
def splitOn (separator : Char) : List Char → List (List Char)
  | [] => [[]]
  | c :: rest =>
    if c = separator then [] :: splitOn separator rest
    else
      match splitOn separator rest with
      | [] => [[c]]
      | stretch :: others => (c :: stretch) :: others

end CartLua
