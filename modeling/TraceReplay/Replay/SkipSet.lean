/-
  TraceReplay.Replay.SkipSet — mnemonics that a replay passes over.

  They only affect control flow or flags. The set is kept sorted by code points, which is
  also the order of the encoded bytes.
-/

import TraceReplay.SortedMap
import TraceReplay.Trace.Record

namespace TraceReplay

structure SkipSet where
  mnemonics : SortedMap String Unit
  deriving DecidableEq

namespace SkipSet

def extend (s : SkipSet) (mnemonics : List String) : SkipSet :=
  ⟨s.mnemonics.insertMany (mnemonics.map (·, ()))⟩

def ofList (mnemonics : List String) : SkipSet := extend ⟨.empty⟩ mnemonics

def toList (s : SkipSet) : List String := s.mnemonics.keys

def contains (s : SkipSet) (mnemonic : String) : Bool := s.mnemonics.contains mnemonic

def jumps : List String :=
  ["jmp", "jz", "jbe", "jo", "jno", "js", "jns", "je", "jne", "jnz", "jb", "jnae", "jc", "jnb",
    "jae", "jnc", "jna", "ja", "jnbe", "jl", "jnge", "jge", "jnl", "jle", "jng", "jg", "jnle",
    "jp", "jpe", "jnp", "jpo", "jcxz", "jecxz"]

/-- Tests, calls, returns and jumps. -/
def standard : SkipSet := ofList (["test", "ret", "cmp", "call"] ++ jumps)

def ofJson? (j : Json) : Option SkipSet := do
  let f ← Record.fields? ["skip"] j
  return ofList (← Record.required f "skip" (Json.toList? Json.toText?))

def toJson (s : SkipSet) : Json := Json.ofFields [("skip", Json.ofList Json.ofText s.toList)]

end SkipSet

end TraceReplay
