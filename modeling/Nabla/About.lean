/-!
# About the program

The version, and the text that a program shows about itself.
-/

namespace Nabla

def version : String := "1.0.0"

/-- What the program says about itself in the given year. -/
def about (year : String) : String :=
  "VectorCalc v" ++ version ++ "\n\n" ++
  "\nSymbolic differentiation, simplification and vector calculus\non expression trees.\n" ++
  "\nThis program is free software; you can redistribute it and/or\n" ++
  "modify it subject to the terms of the Mozilla Public License, v. 2.0.\n" ++
  "If a copy of the MPL was not distributed with this file,\n" ++
  "You can obtain one at https://mozilla.org/MPL/2.0/.\n" ++
  "Copyright (C) 2015-" ++ year ++ "\n"

end Nabla
