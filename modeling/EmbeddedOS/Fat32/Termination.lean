import EmbeddedOS.Fat32.Directory
import EmbeddedOS.Fueled.Walk

/-! The two walks on any table whatever. Neither has a bound of its own: they stop
where a word makes them stop, leave the table, or go round for ever. -/
namespace EmbeddedOS.Fat32
open Fueled Fueled.Comp

section Tables

variable (v : Volume)

def Volume.entries : Finset UInt32 := (Finset.range v.fat.length).image UInt32.ofNat

end Tables

end EmbeddedOS.Fat32
