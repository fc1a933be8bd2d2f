import GlideBridge.Text.Basic

/-! A short client script to try the converter with. -/

namespace GlideBridge

def sampleScript : Text := Text.joinLines
  [ "function onChange(control, oldValue, newValue, isLoading) \x7b",
    "    if (g_form.getValue(\"category\") === \"hardware\") \x7b",
    "        g_form.setValue(\"priority\", \"high\");",
    "        gs.addInfoMessage(\"Priority set to high for hardware issues\");",
    "    \x7d",
    "    ",
    "    if (g_form.getValue(\"urgency\") === \"1\") \x7b",
    "        g_form.setValue(\"priority\", \"critical\");",
    "        gs.addWarningMessage(\"Critical priority set for high urgency\");",
    "    \x7d",
    "\x7d" ]

end GlideBridge
