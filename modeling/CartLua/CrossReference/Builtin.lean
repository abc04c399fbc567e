/-!
# Builtins

The globals that exist before a cartridge runs.
-/

namespace CartLua

def builtins : List String := [
  -- graphics
  "camera", "circ", "circfill", "clip", "cls", "color", "cursor", "fget", "fillp", "flip", "fset", "line", "oval",
  "ovalfill", "pal", "palt", "pget", "print", "pset", "rect", "rectfill", "rrect", "rrectfill", "sget", "spr", "sset",
  "sspr", "tline",
  -- map
  "map", "mapdraw", "mget", "mset",
  -- input and audio
  "btn", "btnp", "music", "sfx",
  -- memory
  "cstore", "memcpy", "memset", "peek", "peek2", "peek4", "poke", "poke2", "poke4", "reload", "serial",
  -- numbers
  "abs", "atan2", "band", "bnot", "bor", "bxor", "ceil", "cos", "flr", "lshr", "max", "mid", "min", "rnd", "rotl",
  "rotr", "sgn", "shl", "shr", "sin", "sqrt", "srand",
  -- tables and strings
  "add", "all", "chr", "count", "del", "deli", "foreach", "ipairs", "next", "ord", "pack", "pairs", "split", "sub",
  "tonum", "tostr", "unpack",
  -- metatables and coroutines
  "cocreate", "coresume", "costatus", "getmetatable", "rawequal", "rawget", "rawlen", "rawset", "select",
  "setmetatable", "type", "yield",
  -- system
  "assert", "cartdata", "dget", "dset", "extcmd", "holdframe", "load", "ls", "menuitem", "printh", "reset", "run",
  "stat", "stop", "t", "time", "trace",
  -- environment
  "_ENV", "_G"]

def isBuiltin (name : String) : Bool := builtins.contains name

end CartLua
