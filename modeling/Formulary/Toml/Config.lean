import Formulary.Config
import Formulary.Toml.Data
import Formulary.Toml.Reader

/-!
# Configuration files

Reads a configuration from the text of a file. Settings that are missing have their defaults, and
settings that nobody knows are passed over; a setting of the wrong type makes the whole configuration
unreadable.
-/

namespace Formulary

/-- Reads which fixes are made. -/
def FixSettings.ofDatum? (dialect : Dialect) (d : Datum) : Option FixSettings := do
  let fields ← d.settings? dialect
    ["expand_macros", "rename_environments", "trim_spaces", "pad_blocks", "rename"]
  return {
    expandMacros := ← fields.setting "expand_macros" standard.expandMacros (·.boolean?)
    renameEnvironments :=
      ← fields.setting "rename_environments" standard.renameEnvironments (·.boolean?)
    trimSpaces := ← fields.setting "trim_spaces" standard.trimSpaces (·.boolean?)
    padBlocks := ← fields.setting "pad_blocks" standard.padBlocks (·.boolean?)
    renames := ← fields.setting "rename" standard.renames fun d => d.namedTexts?.map Renames.mk }

/-- Reads which files are content. -/
def ContentSettings.ofDatum? (dialect : Dialect) (d : Datum) : Option ContentSettings := do
  let fields ← d.settings? dialect ["extensions", "on_error"]
  return {
    extensions := ← fields.setting "extensions" standard.extensions (·.texts?)
    onError := ← fields.setting "on_error" standard.onError fun d =>
      (d.choice? dialect).bind ErrorPolicy.ofWord? }

namespace Config

/-- Reads a configuration from its data. -/
def ofDatum? (dialect : Dialect) (d : Datum) : Option Config := do
  let fields ← d.settings? dialect ["fixes", "content"]
  return {
    fixes := ← fields.setting "fixes" .standard (FixSettings.ofDatum? dialect)
    content := ← fields.setting "content" .standard (ContentSettings.ofDatum? dialect) }

/-- Reads a configuration from the text of a file. -/
def parse? (text : String) : Option Config := do
  ofDatum? .toml (.record (Toml.entryData (← Toml.parse? text)))

end Config

end Formulary
