/-!
# Keywords
-/

namespace CartLua

/-- The reserved words, apart from the three that are values. -/
inductive Keyword where
  | andKw | breakKw | doKw | elseKw | elseifKw | endKw | forKw | functionKw | gotoKw | ifKw | inKw | localKw | notKw
  | orKw | repeatKw | returnKw | thenKw | untilKw | whileKw
deriving DecidableEq, Inhabited, Repr

namespace Keyword

def text : Keyword → String
  | .andKw => "and"
  | .breakKw => "break"
  | .doKw => "do"
  | .elseKw => "else"
  | .elseifKw => "elseif"
  | .endKw => "end"
  | .forKw => "for"
  | .functionKw => "function"
  | .gotoKw => "goto"
  | .ifKw => "if"
  | .inKw => "in"
  | .localKw => "local"
  | .notKw => "not"
  | .orKw => "or"
  | .repeatKw => "repeat"
  | .returnKw => "return"
  | .thenKw => "then"
  | .untilKw => "until"
  | .whileKw => "while"

def all : List Keyword :=
  [.andKw, .breakKw, .doKw, .elseKw, .elseifKw, .endKw, .forKw, .functionKw, .gotoKw, .ifKw, .inKw, .localKw, .notKw,
    .orKw, .repeatKw, .returnKw, .thenKw, .untilKw, .whileKw]

def ofText? (word : String) : Option Keyword := all.find? (·.text == word)

def closesBlock : Keyword → Bool
  | .elseKw | .elseifKw | .endKw | .untilKw => true
  | _ => false

end Keyword

end CartLua
