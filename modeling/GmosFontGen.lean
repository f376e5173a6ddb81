import GmosFontGen.Python
import GmosFontGen.ParseChar
import GmosFontGen.ParseFont
import GmosFontGen.Grammar
import GmosFontGen.Format
import GmosFontGen.Addressing
import GmosFontGen.Pixels
import GmosFontGen.Display
import GmosFontGen.Text
import GmosFontGen.Main
